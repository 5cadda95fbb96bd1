import FsExt4.DirRecords

namespace FsExt4

open Lib Jbd2

namespace Dir

def Slot.fresh (hasFileType : Bool) (inode : UInt32) (name : Bytes) (fileType : DirEntryType)
    (recLen : Nat) : Slot where
  inode := inode
  nameLenLo := UInt8.ofNat name.length
  typeOrNamehi := if hasFileType then fileType.toU8 else UInt8.ofNat (name.length / 256)
  body := name ++ List.replicate (recLen - (8 + name.length)) 0

def Slot.room (hasFileType : Bool) (s : Slot) : Nat :=
  if s.inode = 0 then s.recLen else s.recLen - entryRecLen (s.nameLen hasFileType)

def Slot.shrunk (hasFileType : Bool) (s : Slot) : Slot :=
  { s with body := s.body.take (entryRecLen (s.nameLen hasFileType) - 8) }

def Slot.kept (hasFileType : Bool) (s : Slot) : List Slot :=
  if s.inode = 0 then [] else [s.shrunk hasFileType]

def insertSlot (hasFileType : Bool) (inode : UInt32) (name : Bytes) (fileType : DirEntryType) :
    List Slot → Option (List Slot)
  | [] => none
  | s :: rest =>
    if entryRecLen name.length ≤ s.room hasFileType then
      some (s.kept hasFileType ++ .fresh hasFileType inode name fileType
        (s.room hasFileType) :: rest)
    else (insertSlot hasFileType inode name fileType rest).map (s :: ·)

def Slot.holds (hasFileType : Bool) (name : Bytes) (s : Slot) : Bool :=
  s.inode != 0 && s.name hasFileType == name

def Slot.absorb (p s : Slot) : Slot := { p with body := p.body ++ (List.replicate 8 0 ++ s.body) }

def removeBehind (hasFileType : Bool) (name : Bytes) (p : Slot) : List Slot → Option (List Slot)
  | [] => none
  | s :: rest =>
    if s.holds hasFileType name then some (p.absorb s :: rest)
    else (removeBehind hasFileType name s rest).map (p :: ·)

def removeSlot (hasFileType : Bool) (name : Bytes) : List Slot → Option (List Slot)
  | [] => none
  | s :: rest =>
    if s.holds hasFileType name then some ({ s with inode := 0 } :: rest)
    else removeBehind hasFileType name s rest

section Write

variable {hasFileType : Bool} {inode : UInt32} {name : Bytes} {fileType : DirEntryType}
  {pre post : Bytes}

theorem Slot.recLen_fresh {recLen : Nat} (h : 8 + name.length ≤ recLen) :
    (Slot.fresh hasFileType inode name fileType recLen).recLen = recLen := by
  simp only [Slot.recLen, Slot.fresh, List.length_append, List.length_replicate]
  omega

theorem writeEntry_slot {old : Bytes} (h : 8 + name.length ≤ old.length) :
    writeEntry (pre ++ (old ++ post)) pre.length inode old.length name fileType hasFileType =
      pre ++ ((Slot.fresh hasFileType inode name fileType old.length).bytes ++ post) := by
  have hlen : (if hasFileType then [UInt8.ofNat name.length, fileType.toU8]
      else [UInt8.ofNat (name.length % 256), UInt8.ofNat (name.length / 256)]) =
      [UInt8.ofNat name.length, if hasFileType then fileType.toU8 else UInt8.ofNat
        (name.length / 256)] := by
    cases hasFileType with
    | true => rfl
    | false =>
      have hmod : UInt8.ofNat (name.length % 256) = UInt8.ofNat name.length := by
        apply UInt8.toNat_inj.mp
        simp
      simp only [Bool.false_eq_true, if_false, hmod]
  unfold writeEntry
  dsimp only
  rw [hlen]
  rw [copyAt_next rfl, copyAt_next (by simp), copyAt_next (by simp), copyAt_next (by simp),
    copyAt_next (by simp; omega)]
  have hrest : List.drop (List.replicate (old.length - (8 + name.length)) (0 : UInt8)).length
      (List.drop name.length (List.drop [UInt8.ofNat name.length,
        if hasFileType then fileType.toU8 else UInt8.ofNat (name.length / 256)].length
        (List.drop (u16le (UInt16.ofNat old.length)).length
          (List.drop (u32le inode).length (old ++ post))))) =
      post := by
    rw [List.drop_drop, List.drop_drop, List.drop_drop, List.drop_drop]
    apply List.drop_left'
    simp
    omega
  rw [hrest, Slot.bytes, Slot.recLen_fresh h]
  simp only [Slot.fresh, List.append_assoc]

theorem split_slot {s : Slot}
    (hroom : 8 + name.length ≤ s.recLen - entryRecLen (s.nameLen hasFileType)) :
    writeEntry (copyAt (pre ++ (s.bytes ++ post)) (pre.length + 4)
        (u16le (UInt16.ofNat (entryRecLen (s.nameLen hasFileType)))))
      (pre.length + entryRecLen (s.nameLen hasFileType)) inode
      (s.recLen - entryRecLen (s.nameLen hasFileType)) name fileType hasFileType =
    pre ++ ((s.shrunk hasFileType).bytes ++ ((Slot.fresh hasFileType inode name fileType
      (s.recLen - entryRecLen (s.nameLen hasFileType))).bytes ++ post)) := by
  have h8 : 8 ≤ entryRecLen (s.nameLen hasFileType) := Nat.le_add_right _ _
  have hfits : entryRecLen (s.nameLen hasFileType) - 8 ≤ s.body.length := by
    simp only [Slot.recLen] at hroom
    omega
  have hshrunk : (s.shrunk hasFileType).recLen = entryRecLen (s.nameLen hasFileType) := by
    simp only [Slot.recLen, Slot.shrunk, List.length_take]
    omega
  have hpatched : copyAt (pre ++ (s.bytes ++ post)) (pre.length + 4)
      (u16le (UInt16.ofNat (entryRecLen (s.nameLen hasFileType)))) =
      (pre ++ (s.shrunk hasFileType).bytes) ++
        (s.body.drop (entryRecLen (s.nameLen hasFileType) - 8) ++ post) := by
    have hbytes : pre ++ (s.bytes ++ post) = (pre ++ u32le s.inode) ++
      (u16le (UInt16.ofNat s.recLen) ++ ([s.nameLenLo, s.typeOrNamehi] ++ s.body ++ post)) := by
      simp only [Slot.bytes, List.append_assoc]
    rw [hbytes, copyAt_next (by simp), List.drop_left' (by simp), Slot.bytes, hshrunk]
    simp only [Slot.shrunk, List.append_assoc]
    rw [← List.append_assoc (List.take _ s.body), List.take_append_drop]
  have hold : (s.body.drop (entryRecLen (s.nameLen hasFileType) - 8)).length =
      s.recLen - entryRecLen (s.nameLen hasFileType) := by
    simp only [List.length_drop, Slot.recLen]
    omega
  rw [hpatched, ← hold]
  have hoff : pre.length + entryRecLen (s.nameLen hasFileType) =
      (pre ++ (s.shrunk hasFileType).bytes).length := by
    rw [List.length_append, Slot.length_bytes, hshrunk]
  rw [hoff, writeEntry_slot (by rw [hold]; exact hroom), List.append_assoc]

theorem absorb_slot (p s : Slot) :
    copyAt (copyAt (pre ++ (p.bytes ++ (s.bytes ++ post))) (pre.length + 4)
        (u16le (UInt16.ofNat (p.recLen + s.recLen)))) (pre.length + p.recLen) (List.replicate 8 0) =
      pre ++ ((p.absorb s).bytes ++ post) := by
  have hrec : (p.absorb s).recLen = p.recLen + s.recLen := by
    simp only [Slot.recLen, Slot.absorb, List.length_append, List.length_replicate]
    omega
  have hbytes : pre ++ (p.bytes ++ (s.bytes ++ post)) = (pre ++ u32le p.inode) ++
      (u16le (UInt16.ofNat p.recLen) ++ ([p.nameLenLo, p.typeOrNamehi] ++ p.body ++
        (s.bytes ++ post))) := by
    simp only [Slot.bytes, List.append_assoc]
  have hheader : s.bytes ++ post = (u32le s.inode ++ u16le (UInt16.ofNat s.recLen) ++
      [s.nameLenLo, s.typeOrNamehi]) ++ (s.body ++ post) := by
    simp only [Slot.bytes, List.append_assoc]
  rw [hbytes, copyAt_next (by simp), List.drop_left' (by simp), ← List.append_assoc,
    copyAt_next ?_, hheader, List.drop_left' (by simp), Slot.bytes, hrec]
  · simp only [Slot.absorb, List.append_assoc]
  · simp only [List.length_append, length_u32le, length_u16le, List.length_cons, List.length_nil,
      Slot.recLen]
    omega

theorem unused_slot (s : Slot) : copyAt (pre ++ (s.bytes ++ post)) pre.length (u32le 0) =
    pre ++ (({ s with inode := 0 } : Slot).bytes ++ post) := by
  have hbytes : s.bytes ++ post = u32le s.inode ++ (u16le (UInt16.ofNat s.recLen) ++
      ([s.nameLenLo, s.typeOrNamehi] ++ s.body ++ post)) := by
    simp only [Slot.bytes, List.append_assoc]
  rw [hbytes, copyAt_next rfl, List.drop_left' (by simp)]
  simp only [Slot.bytes, Slot.recLen, List.append_assoc]

end Write

end Dir

namespace Dir

section Scan

variable {hasFileType : Bool} {inode : UInt32} {name : Bytes} {fileType : DirEntryType}
  {post : Bytes}

theorem addEntryFrom_slots (slots : List Slot) (pre : Bytes) (fuel : Nat)
    (hv : ∀ s ∈ slots, s.Valid hasFileType ∧ s.recLen < 2 ^ 16) (hfuel : slots.length ≤ fuel) :
    addEntryFrom (pre ++ (slotBytes slots ++ post)) inode name fileType hasFileType
        (pre.length + (slotBytes slots).length) fuel pre.length =
      match insertSlot hasFileType inode name fileType slots with
      | some slots' => .ok (pre ++ (slotBytes slots' ++ post))
      | none => .error .outOfBounds := by
  induction slots generalizing pre fuel with
  | nil =>
    cases fuel with
    | zero => rfl
    | succ fuel => rw [addEntryFrom, if_pos (by simp [slotBytes])]; rfl
  | cons s rest ih =>
    obtain ⟨fuel, rfl⟩ : ∃ n, fuel = n + 1 :=
      ⟨fuel - 1, by simp only [List.length_cons] at hfuel; omega⟩
    obtain ⟨hvalid, hfit⟩ := hv s List.mem_cons_self
    have haligned := hvalid.aligned
    have hge : 8 ≤ s.recLen := Nat.le_add_right 8 _
    have hneeded : 8 + name.length ≤ entryRecLen name.length := le_entryRecLen _
    rw [slotBytes_cons, List.append_assoc, List.length_append, Slot.length_bytes,
      addEntryFrom, insertSlot]
    simp only [u32leAt_slot, u16leAt_slot hfit, nameLenAt_slot]
    rw [if_neg (by omega), if_neg (by omega)]
    have hrest := ih (pre ++ s.bytes) fuel (fun x hx => hv x (List.mem_cons_of_mem _ hx))
      (by simpa using hfuel)
    rw [List.append_assoc, List.length_append, Slot.length_bytes, Nat.add_assoc] at hrest
    have hskip : (match insertSlot hasFileType inode name fileType rest with
        | some slots' => Except.ok ((pre ++ s.bytes) ++ (slotBytes slots' ++ post))
        | none => Except.error Error.outOfBounds) =
        match (insertSlot hasFileType inode name fileType rest).map (s :: ·) with
        | some slots' => .ok (pre ++ (slotBytes slots' ++ post))
        | none => .error .outOfBounds := by
      cases insertSlot hasFileType inode name fileType rest with
      | none => rfl
      | some slots' =>
        simp only [Option.map_some, slotBytes_cons, List.append_assoc]
    by_cases hinode : s.inode = 0
    · have hroom : s.room hasFileType = s.recLen := by rw [Slot.room, if_pos hinode]
      rw [if_pos hinode, hroom]
      by_cases hfits : entryRecLen name.length ≤ s.recLen
      · rw [if_pos hfits, if_pos hfits, ← Slot.length_bytes, writeEntry_slot
          (by rw [Slot.length_bytes]; omega)]
        simp only [Slot.kept, if_pos hinode, List.nil_append, slotBytes_cons, List.append_assoc]
      · rw [if_neg hfits, if_neg hfits, hrest, hskip]
    · have hroom : s.room hasFileType = s.recLen - entryRecLen (s.nameLen hasFileType) := by
        rw [Slot.room, if_neg hinode]
      rw [if_neg hinode, hroom]
      by_cases hfits : entryRecLen name.length ≤ s.recLen - entryRecLen (s.nameLen hasFileType)
      · rw [if_pos (by omega), if_pos hfits, split_slot (by omega)]
        simp only [Slot.kept, if_neg hinode, List.cons_append, List.nil_append, slotBytes_cons,
          List.append_assoc]
      · rw [if_neg (by omega), if_neg hfits, hrest, hskip]

theorem holds_iff {s : Slot} (hv : s.Valid hasFileType) :
    (s.inode ≠ 0 ∧ 8 + s.nameLen hasFileType ≤ s.recLen ∧
      slice (pre ++ (s.bytes ++ post)) (pre.length + 8) (s.nameLen hasFileType) = name) ↔
      s.holds hasFileType name = true := by
  simp only [Slot.holds, Bool.and_eq_true, bne_iff_ne, beq_iff_eq]
  constructor
  · rintro ⟨hlive, -, hname⟩
    rw [name_slot (hv.inside hlive)] at hname
    exact ⟨hlive, hname⟩
  · rintro ⟨hlive, hname⟩
    refine ⟨hlive, ?_, by rw [name_slot (hv.inside hlive)]; exact hname⟩
    have hin := hv.inside hlive
    simp only [Slot.recLen]
    omega

theorem removeEntryFrom_behind (slots : List Slot) (p : Slot) (pre : Bytes) (fuel : Nat)
    (hv : ∀ s ∈ p :: slots, s.Valid hasFileType)
      (hfit : p.recLen + (slotBytes slots).length < 2 ^ 16)
    (hfuel : slots.length ≤ fuel) :
    removeEntryFrom (pre ++ (p.bytes ++ (slotBytes slots ++ post))) name hasFileType
        (pre.length + p.recLen + (slotBytes slots).length) fuel (some pre.length)
          (pre.length + p.recLen) =
      .ok ((removeBehind hasFileType name p slots).map
        (fun slots' => pre ++ (slotBytes slots' ++ post))) := by
  induction slots generalizing p pre fuel with
  | nil =>
    cases fuel with
    | zero => rfl
    | succ fuel => rw [removeEntryFrom, if_pos (by simp [slotBytes])]; rfl
  | cons s rest ih =>
    obtain ⟨fuel, rfl⟩ : ∃ n, fuel = n + 1 :=
      ⟨fuel - 1, by simp only [List.length_cons] at hfuel; omega⟩
    have hvalid := hv s (by simp)
    have haligned := hvalid.aligned
    have hge : 8 ≤ s.recLen := Nat.le_add_right 8 _
    rw [slotBytes_cons, List.length_append, Slot.length_bytes] at hfit
    have hp := @u16leAt_slot p pre (s.bytes ++ (slotBytes rest ++ post)) (by omega)
    have hoff : pre.length + p.recLen = (pre ++ p.bytes).length := by
      rw [List.length_append, Slot.length_bytes]
    have hassoc : pre ++ (p.bytes ++ (slotBytes (s :: rest) ++ post)) =
        (pre ++ p.bytes) ++ (s.bytes ++ (slotBytes rest ++ post)) := by
      simp only [slotBytes_cons, List.append_assoc]
    have hrest := ih s (pre ++ p.bytes) fuel (fun x hx => hv x (List.mem_cons_of_mem _ hx))
      (by omega) (by simpa using hfuel)
    rw [List.append_assoc, ← List.append_assoc] at hrest
    rw [hassoc, slotBytes_cons, List.length_append, Slot.length_bytes, hoff, removeEntryFrom,
      removeBehind]
    simp only [u32leAt_slot, u16leAt_slot (show s.recLen < 2 ^ 16 by omega), nameLenAt_slot]
    rw [if_neg (by omega), if_neg (by omega)]
    by_cases hholds : s.holds hasFileType name = true
    · rw [if_pos ((holds_iff hvalid).mpr hholds), if_pos hholds, List.append_assoc, hp,
        if_neg (by omega)]
      have habsorb := @absorb_slot pre (slotBytes rest ++ post) p s
      rw [hoff] at habsorb
      rw [habsorb]
      simp only [Option.map_some, slotBytes_cons, List.append_assoc]
    · rw [if_neg (fun h => hholds ((holds_iff hvalid).mp h)), if_neg hholds, ← Nat.add_assoc, hrest]
      cases removeBehind hasFileType name s rest with
      | none => rfl
      | some slots' =>
        simp only [Option.map_some, slotBytes_cons, List.append_assoc]

theorem removeEntryFrom_slots (slots : List Slot) (fuel : Nat)
    (hv : ∀ s ∈ slots, s.Valid hasFileType)
    (hfit : (slotBytes slots).length < 2 ^ 16) (hfuel : slots.length ≤ fuel) :
    removeEntryFrom (slotBytes slots ++ post) name hasFileType (slotBytes slots).length
      fuel none 0 =
      .ok ((removeSlot hasFileType name slots).map (fun slots' => slotBytes slots' ++ post)) := by
  cases slots with
  | nil =>
    cases fuel with
    | zero => rfl
    | succ fuel => rw [removeEntryFrom, if_pos (by simp [slotBytes])]; rfl
  | cons s rest =>
    obtain ⟨fuel, rfl⟩ : ∃ n, fuel = n + 1 :=
      ⟨fuel - 1, by simp only [List.length_cons] at hfuel; omega⟩
    have hvalid := hv s (by simp)
    have haligned := hvalid.aligned
    have hge : 8 ≤ s.recLen := Nat.le_add_right 8 _
    rw [slotBytes_cons, List.length_append, Slot.length_bytes] at hfit
    have hat : ([] : Bytes) ++ (s.bytes ++ (slotBytes rest ++ post)) = slotBytes
        (s :: rest) ++ post := by
      simp only [slotBytes_cons, List.append_assoc, List.nil_append]
    have hinode := @u32leAt_slot s [] (slotBytes rest ++ post)
    have hlen := @u16leAt_slot s [] (slotBytes rest ++ post) (by omega)
    have hname := @nameLenAt_slot hasFileType s [] (slotBytes rest ++ post)
    have hiff := @holds_iff hasFileType name (slotBytes rest ++ post) [] s hvalid
    have hunused := @unused_slot [] (slotBytes rest ++ post) s
    have hrest := @removeEntryFrom_behind hasFileType name post rest s [] fuel hv (by omega)
      (by simpa using hfuel)
    rw [hat] at hinode hlen hname hiff hunused
    rw [List.nil_append, ← List.append_assoc, ← slotBytes_cons] at hrest
    simp only [List.length_nil, Nat.zero_add] at hinode hlen hname hiff hunused hrest
    rw [removeEntryFrom, removeSlot]
    simp only [hinode, hlen, hname, Nat.zero_add]
    rw [slotBytes_cons, List.length_append, Slot.length_bytes, if_neg (by omega), if_neg (by omega)]
    rw [← slotBytes_cons]
    by_cases hholds : s.holds hasFileType name = true
    · rw [if_pos (hiff.mpr hholds), if_pos hholds, hunused]
      simp only [Option.map_some, slotBytes_cons, List.append_assoc, List.nil_append]
    · rw [if_neg (fun h => hholds (hiff.mp h)), if_neg hholds, hrest]
      simp only [List.nil_append]

end Scan

end Dir

namespace Dir

section Effect

variable {hasFileType : Bool} {inode : UInt32} {name : Bytes} {fileType : DirEntryType}

theorem insertSlot_some {slots slots' : List Slot}
    (h : insertSlot hasFileType inode name fileType slots = some slots') :
    ∃ front s behind, slots = front ++ s :: behind ∧ entryRecLen name.length ≤ s.room hasFileType ∧
      slots' = front ++ (s.kept hasFileType ++
        .fresh hasFileType inode name fileType (s.room hasFileType) :: behind) := by
  induction slots generalizing slots' with
  | nil => cases h
  | cons s rest ih =>
    rw [insertSlot] at h
    split at h
    · rename_i hroom
      exact ⟨[], s, rest, rfl, hroom, (Option.some.inj h).symm⟩
    · obtain ⟨rest', hrest, rfl⟩ := Option.map_eq_some_iff.mp h
      obtain ⟨front, t, behind, rfl, hroom, rfl⟩ := ih hrest
      exact ⟨s :: front, t, behind, rfl, hroom, rfl⟩

theorem insertSlot_eq_none {slots : List Slot} : insertSlot hasFileType inode name fileType
    slots = none ↔
    ∀ s ∈ slots, s.room hasFileType < entryRecLen name.length := by
  induction slots with
  | nil => exact ⟨fun _ => nofun, fun _ => rfl⟩
  | cons s rest ih =>
    rw [insertSlot, List.forall_mem_cons, ← ih]
    split
    · rename_i hroom
      exact ⟨nofun, fun h => absurd h.1 (Nat.not_lt.mpr hroom)⟩
    · rename_i hroom
      rw [Option.map_eq_none_iff]
      exact ⟨fun h => ⟨Nat.lt_of_not_le hroom, h⟩, fun h => h.2⟩

/-- The first record of the name gives its space to the one in front, or keeps it unused. -/
inductive Removed (hasFileType : Bool) (name : Bytes) : List Slot → List Slot → Prop where
  | first {s : Slot} {behind : List Slot} (hs : s.holds hasFileType name = true) :
      Removed hasFileType name (s :: behind) ({ s with inode := 0 } :: behind)
  | behind {front behind : List Slot} {p s : Slot}
      (hfront : ∀ x ∈ front ++ [p], x.holds hasFileType name = false)
      (hs : s.holds hasFileType name = true) :
      Removed hasFileType name (front ++ p :: s :: behind) (front ++ p.absorb s :: behind)

theorem removeBehind_some {p : Slot} {slots slots' : List Slot}
    (hp : p.holds hasFileType name = false)
    (h : removeBehind hasFileType name p slots = some slots') :
    Removed hasFileType name (p :: slots) slots' := by
  induction slots generalizing p slots' with
  | nil => cases h
  | cons s rest ih =>
    rw [removeBehind] at h
    split at h
    · rename_i hs
      rw [← Option.some.inj h]
      exact @Removed.behind hasFileType name [] rest p s (by simpa using hp) hs
    · rename_i hs
      obtain ⟨rest', hrest, rfl⟩ := Option.map_eq_some_iff.mp h
      have hs : s.holds hasFileType name = false := by simpa using hs
      have hremoved := ih hs hrest
      generalize hl : s :: rest = l at hremoved
      cases hremoved with
      | first hs' =>
        obtain ⟨rfl, -⟩ := List.cons.inj hl
        rw [hs] at hs'
        cases hs'
      | @behind front behind q t hfront ht =>
        refine @Removed.behind hasFileType name (p :: front) behind q t ?_ ht
        rw [List.cons_append, List.forall_mem_cons]
        exact ⟨hp, hfront⟩

theorem removeSlot_some {slots slots' : List Slot} (h : removeSlot hasFileType name slots =
    some slots') :
    Removed hasFileType name slots slots' := by
  cases slots with
  | nil => cases h
  | cons s rest =>
    rw [removeSlot] at h
    split at h
    · rename_i hs
      rw [← Option.some.inj h]
      exact .first hs
    · rename_i hs
      exact removeBehind_some (by simpa using hs) h

theorem removeBehind_eq_none {p : Slot} {slots : List Slot} : removeBehind hasFileType name p
    slots = none ↔
    ∀ s ∈ slots, s.holds hasFileType name = false := by
  induction slots generalizing p with
  | nil => exact ⟨fun _ => nofun, fun _ => rfl⟩
  | cons s rest ih =>
    rw [removeBehind, List.forall_mem_cons, ← ih (p := s)]
    split
    · rename_i hs
      exact ⟨nofun, fun h => by rw [hs] at h; exact absurd h.1 (by decide)⟩
    · rename_i hs
      rw [Option.map_eq_none_iff]
      exact ⟨fun h => ⟨by simpa using hs, h⟩, fun h => h.2⟩

theorem removeSlot_eq_none {slots : List Slot} : removeSlot hasFileType name slots = none ↔
    ∀ s ∈ slots, s.holds hasFileType name = false := by
  cases slots with
  | nil => exact ⟨fun _ => nofun, fun _ => rfl⟩
  | cons s rest =>
    rw [removeSlot, List.forall_mem_cons, ← removeBehind_eq_none (p := s)]
    split
    · rename_i hs
      exact ⟨nofun, fun h => by rw [hs] at h; exact absurd h.1 (by decide)⟩
    · rename_i hs
      exact ⟨fun h => ⟨by simpa using hs, h⟩, fun h => h.2⟩

theorem holds_iff_entry {s : Slot} : s.holds hasFileType name = true ↔
    s.inode ≠ 0 ∧ (s.entry hasFileType).name = name := by
  simp only [Slot.holds, Bool.and_eq_true, bne_iff_ne, beq_iff_eq]
  rfl

theorem holds_false_iff {slots : List Slot} : (∀ s ∈ slots, s.holds hasFileType name = false) ↔
    ∀ e ∈ slotEntries hasFileType slots, e.name ≠ name := by
  unfold slotEntries liveSlots
  constructor
  · intro h e he
    obtain ⟨s, hs, rfl⟩ := List.mem_map.mp he
    obtain ⟨hs, hlive⟩ := List.mem_filter.mp hs
    intro hname
    have hholds := holds_iff_entry.mpr ⟨by simpa using hlive, hname⟩
    rw [h s hs] at hholds
    cases hholds
  · intro h s hs
    rw [Bool.eq_false_iff]
    intro hholds
    obtain ⟨hlive, hname⟩ := holds_iff_entry.mp hholds
    exact h _ (List.mem_map_of_mem (List.mem_filter.mpr ⟨hs, by simpa using hlive⟩)) hname

theorem entry_absorb {p : Slot} (hp : p.Valid hasFileType) (hlive : p.inode ≠ 0) (s : Slot) :
    (p.absorb s).entry hasFileType = p.entry hasFileType := by
  have hname : (p.absorb s).name hasFileType = p.name hasFileType :=
    List.take_append_of_le_length (hp.inside hlive)
  simp only [Slot.entry, hname]
  rfl

theorem slotEntries_absorb {p : Slot} (hp : p.Valid hasFileType) (s : Slot) (rest : List Slot) :
    slotEntries hasFileType (p.absorb s :: rest) = slotEntries hasFileType (p :: rest) := by
  by_cases hlive : p.inode = 0
  · rw [slotEntries_unused hlive, slotEntries_unused (show (p.absorb s).inode = 0 from hlive)]
  · rw [slotEntries_live hlive, slotEntries_live (show (p.absorb s).inode ≠ 0 from hlive),
      entry_absorb hp hlive]

theorem Removed.entries {slots slots' : List Slot} (h : Removed hasFileType name slots slots')
    (hv : ∀ s ∈ slots, s.Valid hasFileType) :
    slotEntries hasFileType slots' = (slotEntries hasFileType slots).eraseP
      (fun e => e.name == name) := by
  cases h with
  | @first s behind hs =>
    obtain ⟨hlive, hname⟩ := holds_iff_entry.mp hs
    rw [slotEntries_unused rfl, slotEntries_live hlive, List.eraseP_cons_of_pos
      (by simpa using hname)]
  | @behind front behind p s hfront hs =>
    obtain ⟨hlive, hname⟩ := holds_iff_entry.mp hs
    have habsent := holds_false_iff.mp hfront
    have hsplit : front ++ p :: s :: behind = (front ++ [p]) ++ s :: behind := by simp
    rw [hsplit, slotEntries_append hasFileType (front ++ [p]), slotEntries_live hlive,
      List.eraseP_append_right _ (fun e he => by simpa using habsent e he),
      List.eraseP_cons_of_pos (by simpa using hname), slotEntries_append hasFileType front,
      slotEntries_absorb (hv p (by simp)), ← slotEntries_append, ← slotEntries_append,
      List.append_assoc]
    rfl

theorem fromU8_toU8 (t : DirEntryType) : DirEntryType.fromU8 t.toU8 = t := by
  cases t <;> rfl

def newEntry (hasFileType : Bool) (inode : UInt32) (name : Bytes)
    (fileType : DirEntryType) : DirEntry :=
  ⟨inode, name, if hasFileType then fileType else .unknown⟩

theorem nameLen_fresh (hname : name.length ≤ 255) (recLen : Nat) :
    (Slot.fresh hasFileType inode name fileType recLen).nameLen hasFileType = name.length := by
  have hlo : (UInt8.ofNat name.length).toNat = name.length := by
    rw [UInt8.toNat_ofNat']
    exact Nat.mod_eq_of_lt (by omega)
  cases hasFileType with
  | true => exact hlo
  | false =>
    have hhi : (UInt8.ofNat (name.length / 256)).toNat = 0 := by
      rw [Nat.div_eq_of_lt (by omega)]
      rfl
    simp only [Slot.nameLen, Slot.fresh, Bool.false_eq_true, if_false, hlo, hhi]
    omega

theorem entry_fresh (hname : name.length ≤ 255) (recLen : Nat) :
    (Slot.fresh hasFileType inode name fileType recLen).entry hasFileType =
      newEntry hasFileType inode name fileType := by
  have hbody : (Slot.fresh hasFileType inode name fileType recLen).name hasFileType = name := by
    rw [Slot.name, nameLen_fresh hname, Slot.fresh, List.take_left]
  simp only [Slot.entry, hbody, newEntry]
  cases hasFileType with
  | true => simp only [if_true, Slot.fresh, fromU8_toU8]
  | false => rfl

theorem valid_fresh (hname : name.length ≤ 255) {recLen : Nat} (hrec : 8 + name.length ≤ recLen)
    (haligned : recLen % 4 = 0) : (Slot.fresh hasFileType inode name fileType recLen).Valid
      hasFileType where
  aligned := by rw [Slot.recLen_fresh hrec, haligned]
  inside := by
    intro _
    rw [nameLen_fresh hname]
    simp only [Slot.fresh, List.length_append]
    omega

theorem entryRecLen_le {s : Slot} (hv : s.Valid hasFileType) (hlive : s.inode ≠ 0) :
    entryRecLen (s.nameLen hasFileType) ≤ s.recLen := by
  have haligned := hv.aligned
  have hin := hv.inside hlive
  simp only [Slot.recLen] at haligned ⊢
  unfold entryRecLen
  omega

theorem recLen_shrunk {s : Slot} (hv : s.Valid hasFileType) (hlive : s.inode ≠ 0) :
    (s.shrunk hasFileType).recLen = entryRecLen (s.nameLen hasFileType) := by
  have hle := entryRecLen_le hv hlive
  have h8 : 8 ≤ entryRecLen (s.nameLen hasFileType) := Nat.le_add_right _ _
  simp only [Slot.recLen] at hle
  simp only [Slot.recLen, Slot.shrunk, List.length_take]
  omega

theorem entryRecLen_aligned (n : Nat) : entryRecLen n % 4 = 0 := by
  unfold entryRecLen
  omega

theorem valid_shrunk {s : Slot} (hv : s.Valid hasFileType) (hlive : s.inode ≠ 0) :
    (s.shrunk hasFileType).Valid hasFileType where
  aligned := by rw [recLen_shrunk hv hlive, entryRecLen_aligned]
  inside := by
    intro _
    have hrec := recLen_shrunk hv hlive
    have hle := le_entryRecLen (s.nameLen hasFileType)
    simp only [Slot.recLen] at hrec
    change s.nameLen hasFileType ≤ _
    omega

theorem entry_shrunk (s : Slot) : (s.shrunk hasFileType).entry hasFileType =
    s.entry hasFileType := by
  have hname : (s.shrunk hasFileType).name hasFileType = s.name hasFileType := by
    have hle := le_entryRecLen (s.nameLen hasFileType)
    change (s.body.take _).take (s.nameLen hasFileType) = s.body.take (s.nameLen hasFileType)
    rw [List.take_take, Nat.min_eq_left (by omega)]
  simp only [Slot.entry, hname]
  rfl

theorem room_aligned {s : Slot} (hv : s.Valid hasFileType) : s.room hasFileType % 4 = 0 ∧
    ((s.kept hasFileType).map Slot.recLen).sum + s.room hasFileType = s.recLen ∧
      (∀ x ∈ s.kept hasFileType, x.Valid hasFileType ∧ x.inode ≠ 0) ∧
      slotEntries hasFileType (s.kept hasFileType) = slotEntries hasFileType [s] := by
  have haligned := hv.aligned
  by_cases hlive : s.inode = 0
  · simp only [Slot.room, Slot.kept, if_pos hlive, List.map_nil, List.sum_nil, Nat.zero_add]
    exact ⟨haligned, trivial, nofun, (slotEntries_unused hlive []).symm⟩
  · have hle := entryRecLen_le hv hlive
    have h4 := entryRecLen_aligned (s.nameLen hasFileType)
    simp only [Slot.room, Slot.kept, if_neg hlive, List.map_cons, List.map_nil, List.sum_cons,
      List.sum_nil, recLen_shrunk hv hlive, List.mem_singleton, forall_eq]
    refine ⟨by omega, by omega, ⟨valid_shrunk hv hlive, hlive⟩, ?_⟩
    rw [slotEntries_live (show (s.shrunk hasFileType).inode ≠ 0 from hlive), slotEntries_live hlive,
      entry_shrunk]

theorem sum_recLen (slots : List Slot) : (slotBytes slots).length =
    (slots.map Slot.recLen).sum := by
  induction slots with
  | nil => rfl
  | cons s rest ih =>
    rw [slotBytes_cons, List.length_append, Slot.length_bytes, ih, List.map_cons, List.sum_cons]

/-- An insertion keeps the length; its records are those there were or live ones, and its entries
those there were and the new one. -/
theorem insertSlot_effect {slots slots' : List Slot} (hinode : inode ≠ 0)
    (hname : name.length ≤ 255) (hv : ∀ s ∈ slots, s.Valid hasFileType)
    (hinsert : insertSlot hasFileType inode name fileType slots = some slots') :
    (slotBytes slots').length = (slotBytes slots).length ∧
      (∀ s ∈ slots', s ∈ slots ∨ s.Valid hasFileType ∧ s.inode ≠ 0) ∧
      (slotEntries hasFileType slots').Perm
        (newEntry hasFileType inode name fileType :: slotEntries hasFileType slots) := by
  obtain ⟨front, s, behind, rfl, hroom, rfl⟩ := insertSlot_some hinsert
  obtain ⟨haligned, hsum, hkept, hentries⟩ := room_aligned (hv s (by simp))
  have hneeded := le_entryRecLen name.length
  have hfresh := @Slot.recLen_fresh hasFileType inode name fileType (s.room hasFileType) (by omega)
  have hvalid := @valid_fresh hasFileType inode name fileType hname (s.room hasFileType)
    (by omega) haligned
  refine ⟨?_, ?_, ?_⟩
  · simp only [sum_recLen, List.map_append, List.map_cons, List.sum_append, List.sum_cons, hfresh]
    omega
  · intro x hx
    simp only [List.mem_append, List.mem_cons] at hx
    obtain hx | (hx | rfl | hx) := hx
    · exact .inl (by simp [hx])
    · exact .inr (hkept x hx)
    · exact .inr ⟨hvalid, hinode⟩
    · exact .inl (by simp [hx])
  · rw [slotEntries_append, slotEntries_append, hentries,
      slotEntries_live (show (Slot.fresh hasFileType inode name fileType _).inode ≠ 0 from hinode),
      entry_fresh hname, show front ++ s :: behind = front ++ ([s] ++ behind) from rfl,
      slotEntries_append, slotEntries_append]
    have hmiddle := @List.perm_middle _ (newEntry hasFileType inode name fileType)
      (slotEntries hasFileType front ++ slotEntries hasFileType [s])
        (slotEntries hasFileType behind)
    simpa only [List.append_assoc] using hmiddle

structure Roomy (hasFileType : Bool) (k : Nat) (slots : List Slot) : Prop where
  valid : ∀ s ∈ slots, s.Valid hasFileType ∧ s.recLen < 2 ^ 16
  room : ∃ s ∈ slots, k ≤ s.room hasFileType

theorem Roomy.insert {k : Nat} {slots : List Slot} (h : Roomy hasFileType k slots)
    (hinode : inode ≠ 0) (hname : name.length ≤ 255) (hfits : entryRecLen name.length ≤ k) :
    ∃ slots', insertSlot hasFileType inode name fileType slots = some slots' ∧
      Roomy hasFileType (k - entryRecLen name.length) slots' := by
  obtain ⟨roomy, hmem, hroomy⟩ := h.room
  cases hinsert : insertSlot hasFileType inode name fileType slots with
  | none => exact absurd (insertSlot_eq_none.mp hinsert roomy hmem) (by omega)
  | some slots' =>
    obtain ⟨front, s, behind, rfl, hroom, rfl⟩ := insertSlot_some hinsert
    obtain ⟨hvalid, hfit⟩ := h.valid s (by simp)
    obtain ⟨haligned, hsum, hkept, -⟩ := room_aligned hvalid
    have hneeded := le_entryRecLen name.length
    have hrec : (Slot.fresh hasFileType inode name fileType (s.room hasFileType)).recLen =
        s.room hasFileType := Slot.recLen_fresh (by omega)
    refine ⟨_, rfl, ?_, ?_⟩
    · intro x hx
      simp only [List.mem_append, List.mem_cons] at hx
      obtain hx | (hx | rfl | hx) := hx
      · exact h.valid x (by simp [hx])
      · have hle := recLen_le_of_mem hx
        rw [sum_recLen] at hle
        exact ⟨(hkept x hx).1, by omega⟩
      · exact ⟨valid_fresh hname (by omega) haligned, by omega⟩
      · exact h.valid x (by simp [hx])
    · simp only [List.mem_append, List.mem_cons] at hmem
      obtain hmem | rfl | hmem := hmem
      · exact ⟨roomy, by simp [hmem], by omega⟩
      · refine ⟨.fresh hasFileType inode name fileType (roomy.room hasFileType), by simp, ?_⟩
        rw [Slot.room, if_neg (show (Slot.fresh hasFileType inode name fileType
          (roomy.room hasFileType)).inode ≠ 0 from hinode), nameLen_fresh hname, hrec]
        omega
      · exact ⟨roomy, by simp [hmem], by omega⟩

end Effect

end Dir

namespace Dir

section InPlace

variable (inode : UInt32) (name : Bytes) (fileType : DirEntryType) (hasFileType : Bool)
  (usable : Nat)

/-- The scan of `add_entry_to_block` on the buffer it is lent: its result, and the bytes it
leaves. -/
def addEntryInto : Nat → Nat → Bytes → Result Unit × Bytes
  | 0, _, buf => (.error .outOfBounds, buf)
  | fuel + 1, off, buf =>
    let needed := entryRecLen name.length
    if usable < off + 8 then (.error .outOfBounds, buf)
    else
      let curInode := u32leAt buf off
      let recLen := (u16leAt buf (off + 4)).toNat
      if recLen < 8 ∨ recLen % 4 ≠ 0 ∨ usable < off + recLen then
        (.error (.corruptDirEntry "bad rec_len during add"), buf)
      else if curInode = 0 then
        if needed ≤ recLen then (.ok (), writeEntry buf off inode recLen name fileType hasFileType)
        else addEntryInto fuel (off + recLen) buf
      else
        let curActual := entryRecLen (nameLenAt hasFileType buf off)
        if curActual + needed ≤ recLen then
          let buf := copyAt buf (off + 4) (u16le (UInt16.ofNat curActual))
          (.ok (), writeEntry buf (off + curActual) inode (recLen - curActual) name fileType
            hasFileType)
        else addEntryInto fuel (off + recLen) buf

def addEntryInPlace (reservedTail : Nat) (buf : Bytes) : Result Unit × Bytes :=
  if inode = 0 then (.error (.corruptDirEntry "refuse to insert entry with inode 0"), buf)
  else if name.isEmpty ∨ 255 < name.length then
    (.error (.corruptDirEntry "name length out of range"), buf)
  else if buf.length < reservedTail then (.error .outOfBounds, buf)
  else if buf.length - reservedTail < entryRecLen name.length then (.error .outOfBounds, buf)
  else addEntryInto inode name fileType hasFileType (buf.length - reservedTail) buf.length 0 buf

/-- The scan of `remove_entry_from_block`, in the same way. -/
def removeEntryOut : Nat → Option Nat → Nat → Bytes → Result Bool × Bytes
  | 0, _, _, buf => (.ok false, buf)
  | fuel + 1, prev, off, buf =>
    if usable < off + 8 then (.ok false, buf)
    else
      let curInode := u32leAt buf off
      let recLen := (u16leAt buf (off + 4)).toNat
      if recLen < 8 ∨ recLen % 4 ≠ 0 ∨ usable < off + recLen then
        (.error (.corruptDirEntry "bad rec_len during remove"), buf)
      else
        let curNameLen := nameLenAt hasFileType buf off
        if curInode ≠ 0 ∧ 8 + curNameLen ≤ recLen ∧ slice buf (off + 8) curNameLen = name then
          match prev with
          | some prev =>
            let merged := (u16leAt buf (prev + 4)).toNat + recLen
            if 2 ^ 16 ≤ merged then (.error (.corruptDirEntry "merged rec_len overflows u16"), buf)
            else
              let buf := copyAt buf (prev + 4) (u16le (UInt16.ofNat merged))
              (.ok true, copyAt buf off (List.replicate 8 0))
          | none => (.ok true, copyAt buf off (u32le 0))
        else removeEntryOut fuel (some off) (off + recLen) buf

def removeEntryInPlace (reservedTail : Nat) (buf : Bytes) : Result Bool × Bytes :=
  if buf.length < reservedTail then (.error .outOfBounds, buf)
  else removeEntryOut name hasFileType (buf.length - reservedTail) buf.length none 0 buf

end InPlace

section InPlace

variable {inode : UInt32} {name : Bytes} {fileType : DirEntryType} {hasFileType : Bool}
  {usable : Nat}

theorem addEntryInto_eq (fuel off : Nat) (buf : Bytes) :
    addEntryInto inode name fileType hasFileType usable fuel off buf =
      match addEntryFrom buf inode name fileType hasFileType usable fuel off with
      | .ok new => (.ok (), new)
      | .error e => (.error e, buf) := by
  induction fuel generalizing off with
  | zero => rfl
  | succ fuel ih =>
    rw [addEntryInto, addEntryFrom]
    dsimp only
    split
    · rfl
    split
    · rfl
    split
    · split
      · rfl
      · exact ih _
    · split
      · rfl
      · exact ih _

theorem addEntryInPlace_eq (reservedTail : Nat) (buf : Bytes) :
    addEntryInPlace inode name fileType hasFileType reservedTail buf =
      match addEntryToBlock buf inode name fileType hasFileType reservedTail with
      | .ok new => (.ok (), new)
      | .error e => (.error e, buf) := by
  unfold addEntryInPlace addEntryToBlock
  split
  · rfl
  split
  · rfl
  split
  · rfl
  split
  · rfl
  · exact addEntryInto_eq _ _ _

theorem removeEntryOut_eq (fuel : Nat) (prev : Option Nat) (off : Nat) (buf : Bytes) :
    removeEntryOut name hasFileType usable fuel prev off buf =
      match removeEntryFrom buf name hasFileType usable fuel prev off with
      | .ok (some new) => (.ok true, new)
      | .ok none => (.ok false, buf)
      | .error e => (.error e, buf) := by
  induction fuel generalizing prev off with
  | zero => rfl
  | succ fuel ih =>
    rw [removeEntryOut, removeEntryFrom]
    dsimp only
    split
    · rfl
    split
    · rfl
    split
    · cases prev with
      | none => rfl
      | some prev =>
        dsimp only
        split
        · rfl
        · rfl
    · exact ih _ _

theorem removeEntryInPlace_eq (reservedTail : Nat) (buf : Bytes) :
    removeEntryInPlace name hasFileType reservedTail buf =
      match removeEntryFromBlock buf name hasFileType reservedTail with
      | .ok (some new) => (.ok true, new)
      | .ok none => (.ok false, buf)
      | .error e => (.error e, buf) := by
  unfold removeEntryInPlace removeEntryFromBlock
  split
  · rfl
  · exact removeEntryOut_eq _ _ _ _

end InPlace

inductive Edit where
  | add (inode : UInt32) (name : Bytes) (fileType : DirEntryType)
  | remove (name : Bytes)

def Edit.name : Edit → Bytes
  | .add _ name _ => name
  | .remove name => name

def Edit.apply (hasFileType : Bool) (reservedTail : Nat) (buf : Bytes) : Edit → Bytes
  | .add inode name fileType => (addEntryInPlace inode name fileType hasFileType reservedTail buf).2
  | .remove name => (removeEntryInPlace name hasFileType reservedTail buf).2

def runEdits (hasFileType : Bool) (reservedTail : Nat) (edits : List Edit) (buf : Bytes) : Bytes :=
  edits.foldl (Edit.apply hasFileType reservedTail) buf

/-- A directory block: records tile its usable area, none of them in the shape of a checksum tail,
and the reserved bytes, if any, are one. -/
structure BlockOf (hasFileType : Bool) (reservedTail : Nat) (slots : List Slot)
    (buf : Bytes) : Prop where
  fills : Fills hasFileType slots (buf.take (buf.length - reservedTail))
  noTail : ∀ s ∈ slots, s.isTail = false
  tail : reservedTail = 0 ∨ reservedTail = 12 ∧ hasCsumTail buf = true

/-- What a call to put an entry in returns and leaves, on a block of these records. -/
structure AddsEntry (hasFileType : Bool) (slots : List Slot) (buf : Bytes) (inode : UInt32)
    (name : Bytes) (fileType : DirEntryType) (result : Result Unit) (new : Bytes) : Prop where
  added : result = .ok () → ∃ old now, parseBlock buf hasFileType = .ok old ∧
    parseBlock new hasFileType = .ok now ∧
    now.Perm (newEntry hasFileType inode name fileType :: old)
  full : inode ≠ 0 →
    (result = .error .outOfBounds ↔ ∀ s ∈ slots, s.room hasFileType < entryRecLen name.length)
  refused : inode = 0 → ∃ msg, result = .error (.corruptDirEntry msg)
  unchanged : ∀ e, result = .error e → new = buf

structure RemovesEntry (hasFileType : Bool) (buf name : Bytes) (result : Result Bool)
    (new : Bytes) :
    Prop where
  removed : result = .ok true → ∃ old, parseBlock buf hasFileType = .ok old ∧
    parseBlock new hasFileType = .ok (old.eraseP (fun e => e.name == name))
  absent : result = .ok false ↔ ∃ old, parseBlock buf hasFileType = .ok old ∧ ∀ e ∈ old,
    e.name ≠ name
  unchanged : (result = .ok false ∨ ∃ e, result = .error e) → new = buf

def Edit.Does (hasFileType : Bool) (reservedTail : Nat) (slots : List Slot) (buf : Bytes) : Edit →
    Prop
  | .add inode name fileType =>
    let (result, new) := addEntryInPlace inode name fileType hasFileType reservedTail buf
    AddsEntry hasFileType slots buf inode name fileType result new
  | .remove name =>
    let (result, new) := removeEntryInPlace name hasFileType reservedTail buf
    RemovesEntry hasFileType buf name result new

end Dir

namespace Dir

theorem le_of_hasCsumTail {buf : Bytes} (h : hasCsumTail buf = true) : 12 ≤ buf.length := by
  unfold hasCsumTail at h
  split at h
  · cases h
  · omega

theorem hasCsumTail_append (a t : Bytes) (ht : t.length = 12) : hasCsumTail (a ++ t) =
    hasCsumTail t := by
  have hoff : (a ++ t).length - 12 = a.length := by
    rw [List.length_append]
    omega
  have hslice : ∀ off n, slice (a ++ t) (a.length + off) n = slice t off n := by
    intro off n
    rw [slice_append_right _ _ _ _ (Nat.le_add_right _ _), Nat.add_sub_cancel_left]
  have hget : ∀ off, (a ++ t).getD (a.length + off) 0 = t.getD off 0 := by
    intro off
    rw [List.getD_eq_getElem?_getD, List.getD_eq_getElem?_getD, List.getElem?_append_right
      (Nat.le_add_right _ _), Nat.add_sub_cancel_left]
  have h0 := hslice 0 4
  rw [Nat.add_zero] at h0
  unfold hasCsumTail
  dsimp only
  rw [if_neg (by rw [List.length_append]; omega), if_neg (by omega), hoff, ht, Nat.sub_self]
  simp only [u32leAt, u16leAt, h0, hslice, hget, Nat.zero_add]

theorem slot_of_hasCsumTail {t : Bytes} (ht : t.length = 12) (h : hasCsumTail t = true) :
    ∃ s : Slot, s.bytes = t ∧ s.inode = 0 ∧ s.recLen = 12 := by
  unfold hasCsumTail at h
  dsimp only at h
  rw [if_neg (by omega), ht, Nat.sub_self] at h
  simp only [Bool.and_eq_true, beq_iff_eq, Nat.zero_add] at h
  obtain ⟨⟨⟨hinode, hlen⟩, hlo⟩, htype⟩ := h
  have h4 := @u32le_u32leAt t 0 (by omega)
  have h2 := @u16le_u16leAt t 4 (by omega)
  rw [hinode] at h4
  rw [hlen] at h2
  have hrec : (⟨0, 0, tailFileType, t.drop 8⟩ : Slot).recLen = 12 := by
    simp only [Slot.recLen, List.length_drop, ht]
  refine ⟨⟨0, 0, tailFileType, t.drop 8⟩, ?_, rfl, hrec⟩
  rw [Slot.bytes, hrec]
  dsimp only
  have hdrop6 : t.drop 6 = [0, tailFileType] ++ t.drop 8 := by
    rw [List.drop_eq_getElem_cons (by omega : 6 < t.length), List.drop_eq_getElem_cons
      (by omega : 7 < t.length)]
    rw [List.getD_eq_getElem _ _ (by omega)] at hlo htype
    rw [hlo, htype]
    rfl
  have hdrop4 : t.drop 4 = u16le 12 ++ t.drop 6 := by
    rw [h2, slice]
    conv_lhs => rw [← List.take_append_drop 2 (t.drop 4)]
    rw [List.drop_drop]
  have hdrop0 : t = u32le 0 ++ t.drop 4 := by
    rw [h4, slice, List.drop_zero, List.take_append_drop]
  conv_rhs => rw [hdrop0, hdrop4, hdrop6]
  simp only [List.append_assoc]
  rfl

namespace BlockOf

variable {hasFileType : Bool} {reservedTail : Nat} {slots slots' : List Slot} {buf : Bytes}

theorem le (h : BlockOf hasFileType reservedTail slots buf) : reservedTail ≤ buf.length := by
  obtain rfl | ⟨rfl, htail⟩ := h.tail
  · exact Nat.zero_le _
  · exact le_of_hasCsumTail htail

theorem split (h : BlockOf hasFileType reservedTail slots buf) :
    buf = slotBytes slots ++ buf.drop (buf.length - reservedTail) := by
  rw [h.fills.bytes, List.take_append_drop]

theorem length_area (h : BlockOf hasFileType reservedTail slots buf) :
    (slotBytes slots).length = buf.length - reservedTail := by
  rw [h.fills.bytes, List.length_take, Nat.min_eq_left (Nat.sub_le _ _)]

theorem parseBlock_eq (h : BlockOf hasFileType reservedTail slots buf) :
    parseBlock buf hasFileType = .ok (slotEntries hasFileType slots) := by
  have hle := h.le
  have hlen : (buf.drop (buf.length - reservedTail)).length = reservedTail := by
    rw [List.length_drop]
    omega
  have hsplit := h.split
  obtain rfl | ⟨rfl, htail⟩ := h.tail
  · have hnil : buf.drop (buf.length - 0) = [] := List.length_eq_zero_iff.mp hlen
    rw [hnil, List.append_nil] at hsplit
    have harea := h.fills.parseBlock_eq h.noTail
    rwa [Nat.sub_zero, List.take_length] at harea
  · rw [hsplit, hasCsumTail_append _ _ hlen] at htail
    obtain ⟨t, ht, hunused, hrec⟩ := slot_of_hasCsumTail hlen htail
    have hone : buf = slotBytes (slots ++ [t]) := by
      rw [slotBytes_append, slotBytes_cons, ht]
      simpa [slotBytes] using hsplit
    have hentries : slotEntries hasFileType (slots ++ [t]) = slotEntries hasFileType slots := by
      rw [slotEntries_append, slotEntries_unused hunused]
      exact List.append_nil _
    rw [hone, parseBlock_slots ?_ ?_, hentries]
    · intro s hs
      obtain hs | hs := List.mem_append.mp hs
      · exact ⟨h.fills.valid s hs, h.fills.recLen_lt hs⟩
      · rw [List.mem_singleton.mp hs, hrec]
        exact ⟨⟨by rw [hrec], fun hlive => absurd hunused hlive⟩, by decide⟩
    · rw [List.dropLast_concat]
      exact h.noTail

theorem replace (h : BlockOf hasFileType reservedTail slots buf)
    (hlen : (slotBytes slots').length = (slotBytes slots).length)
    (hvalid : ∀ s ∈ slots', s.Valid hasFileType) (hnoTail : ∀ s ∈ slots', s.isTail = false) :
    BlockOf hasFileType reservedTail slots'
      (slotBytes slots' ++ buf.drop (buf.length - reservedTail)) ∧
      (slotBytes slots' ++ buf.drop (buf.length - reservedTail)).length = buf.length ∧
      (slotBytes slots' ++ buf.drop (buf.length - reservedTail)).drop (buf.length - reservedTail) =
        buf.drop (buf.length - reservedTail) := by
  have hle := h.le
  have harea := h.length_area
  have htail : (buf.drop (buf.length - reservedTail)).length = reservedTail := by
    rw [List.length_drop]
    omega
  have htotal : (slotBytes slots' ++ buf.drop (buf.length - reservedTail)).length = buf.length := by
    rw [List.length_append, htail]
    omega
  have hcut : buf.length - reservedTail = (slotBytes slots').length := by omega
  refine ⟨⟨⟨?_, hvalid, ?_⟩, hnoTail, ?_⟩, htotal, ?_⟩
  · rw [htotal, hcut, List.take_left]
  · rw [htotal]
    have hsize := h.fills.size
    rw [List.length_take] at hsize ⊢
    omega
  · obtain hzero | ⟨htwelve, hcsum⟩ := h.tail
    · exact .inl hzero
    · rw [htwelve] at htail ⊢
      refine .inr ⟨rfl, ?_⟩
      have hsplit := h.split
      rw [htwelve] at hsplit
      rw [hasCsumTail_append _ _ htail]
      rwa [hsplit, hasCsumTail_append _ _ htail] at hcsum
  · conv_lhs => rw [hcut]
    rw [List.drop_left, hcut]

end BlockOf

end Dir

namespace Dir

section Calls

variable {hasFileType : Bool} {reservedTail : Nat} {slots : List Slot} {buf : Bytes}
  {inode : UInt32}
  {name : Bytes} {fileType : DirEntryType} (h : BlockOf hasFileType reservedTail slots buf)
  (hpos : 1 ≤ name.length) (hmax : name.length ≤ 255)

theorem room_le (hv : ∀ s ∈ slots, s.Valid hasFileType) {s : Slot} (hs : s ∈ slots) :
    s.room hasFileType ≤ (slotBytes slots).length := by
  obtain ⟨-, hsum, -⟩ := room_aligned (hv s hs)
  have hle := recLen_le_of_mem hs
  omega

include hpos hmax

omit h in
theorem addEntryToBlock_slots (hinode : inode ≠ 0) {slots : List Slot}
    (hv : ∀ s ∈ slots, s.Valid hasFileType ∧ s.recLen < 2 ^ 16) (post : Bytes) :
    addEntryToBlock (slotBytes slots ++ post) inode name fileType hasFileType post.length =
      match insertSlot hasFileType inode name fileType slots with
      | some slots' => .ok (slotBytes slots' ++ post)
      | none => .error .outOfBounds := by
  have hnonempty : ¬ (name.isEmpty = true ∨ 255 < name.length) := by
    rw [List.isEmpty_iff]
    rintro (rfl | hlong)
    · exact absurd hpos (by decide)
    · omega
  have hlen : (slotBytes slots ++ post).length - post.length = (slotBytes slots).length := by
    rw [List.length_append, Nat.add_sub_cancel]
  have hscan := @addEntryFrom_slots hasFileType inode name fileType post slots []
    (slotBytes slots ++ post).length hv
    (Nat.le_trans (length_le_slotBytes slots) (by rw [List.length_append]; omega))
  simp only [List.nil_append, List.length_nil, Nat.zero_add] at hscan
  unfold addEntryToBlock
  rw [if_neg hinode, if_neg hnonempty, if_neg (by rw [List.length_append]; omega), hlen]
  split
  · rename_i hsmall
    have hnone : insertSlot hasFileType inode name fileType slots = none := by
      rw [insertSlot_eq_none]
      intro s hs
      have hroom := room_le (fun x hx => (hv x hx).1) hs
      omega
    rw [hnone]
  · exact hscan

include h

theorem BlockOf.addEntryToBlock_eq (hinode : inode ≠ 0) :
    addEntryToBlock buf inode name fileType hasFileType reservedTail =
      match insertSlot hasFileType inode name fileType slots with
      | some slots' => .ok (slotBytes slots' ++ buf.drop (buf.length - reservedTail))
      | none => .error .outOfBounds := by
  have hle := h.le
  have hscan := @addEntryToBlock_slots hasFileType inode name fileType hpos hmax hinode slots
    (fun s hs => ⟨h.fills.valid s hs, h.fills.recLen_lt hs⟩) (buf.drop (buf.length - reservedTail))
  rw [← h.split, List.length_drop, Nat.sub_sub_self hle] at hscan
  exact hscan

omit hpos in
theorem BlockOf.inserted (hinode : inode ≠ 0) {slots' : List Slot}
    (hinsert : insertSlot hasFileType inode name fileType slots = some slots') :
    (slotBytes slots').length = (slotBytes slots).length ∧ (∀ s ∈ slots', s.Valid hasFileType) ∧
      (∀ s ∈ slots', s.isTail = false) ∧
      (slotEntries hasFileType slots').Perm
        (newEntry hasFileType inode name fileType :: slotEntries hasFileType slots) := by
  obtain ⟨hlen, hmem, hperm⟩ := insertSlot_effect hinode hmax h.fills.valid hinsert
  refine ⟨hlen, fun x hx => ?_, fun x hx => ?_, hperm⟩
  · obtain hold | ⟨hvalid, -⟩ := hmem x hx
    · exact h.fills.valid x hold
    · exact hvalid
  · obtain hold | ⟨-, hlive⟩ := hmem x hx
    · exact h.noTail x hold
    · simp [Slot.isTail, hlive]

omit hpos hmax in
theorem BlockOf.removeEntryFromBlock_eq :
    removeEntryFromBlock buf name hasFileType reservedTail =
      .ok ((removeSlot hasFileType name slots).map
        (fun slots' => slotBytes slots' ++ buf.drop (buf.length - reservedTail))) := by
  have hle := h.le
  have harea := h.length_area
  have hsize := h.fills.size
  rw [← h.fills.bytes] at hsize
  have hscan := @removeEntryFrom_slots hasFileType name (buf.drop (buf.length - reservedTail)) slots
    buf.length h.fills.valid (by omega) (Nat.le_trans (length_le_slotBytes slots) (by omega))
  rw [← h.split, harea] at hscan
  unfold removeEntryFromBlock
  rw [if_neg (by omega)]
  exact hscan

theorem BlockOf.removed {slots' : List Slot} (hremoved : Removed hasFileType name slots slots') :
    (slotBytes slots').length = (slotBytes slots).length ∧ (∀ s ∈ slots', s.Valid hasFileType) ∧
      ∀ s ∈ slots', s.isTail = false := by
  cases hremoved with
  | @first s behind hs =>
    obtain ⟨hlive, hname⟩ := holds_iff_entry.mp hs
    have hvalid := h.fills.valid s (by simp)
    have hlen := Slot.length_name hvalid hlive
    have hsame : s.name hasFileType = name := hname
    rw [hsame] at hlen
    refine ⟨by simp only [sum_recLen, List.map_cons, List.sum_cons, Slot.recLen], ?_, ?_⟩
    · rw [List.forall_mem_cons]
      exact ⟨⟨hvalid.aligned, fun hzero => absurd rfl hzero⟩,
        fun x hx => h.fills.valid x (List.mem_cons_of_mem _ hx)⟩
    · rw [List.forall_mem_cons]
      refine ⟨?_, fun x hx => h.noTail x (List.mem_cons_of_mem _ hx)⟩
      -- the length of its name is still there
      have hlo : s.nameLenLo ≠ 0 := by
        intro hzero
        simp only [Slot.nameLen, hzero] at hlen
        cases hasFileType with
        | true =>
          simp only [if_true, UInt8.toNat_zero] at hlen
          omega
        | false =>
          simp only [Bool.false_eq_true, if_false, UInt8.toNat_zero] at hlen
          omega
      simp [Slot.isTail, hlo]
  | @behind front behind p s hfront hs =>
    have hp := h.fills.valid p (by simp)
    have hsv := h.fills.valid s (by simp)
    have hrec : (p.absorb s).recLen = p.recLen + s.recLen := by
      simp only [Slot.recLen, Slot.absorb, List.length_append, List.length_replicate]
      omega
    have hold : ∀ x ∈ front ++ behind, x ∈ front ++ p :: s :: behind := by
      intro x hx
      obtain hx | hx := List.mem_append.mp hx
      · exact List.mem_append_left _ hx
      · exact List.mem_append_right _ (List.mem_cons_of_mem _ (List.mem_cons_of_mem _ hx))
    have hall : ∀ (P : Slot → Prop), (∀ x ∈ front ++ behind, P x) → P (p.absorb s) →
        ∀ x ∈ front ++ p.absorb s :: behind, P x := by
      intro P hothers hnew x hx
      obtain hx | hx := List.mem_append.mp hx
      · exact hothers x (List.mem_append_left _ hx)
      · obtain rfl | hx := List.mem_cons.mp hx
        · exact hnew
        · exact hothers x (List.mem_append_right _ hx)
    refine ⟨?_, hall _ (fun x hx => h.fills.valid x (hold x hx)) ⟨?_, ?_⟩,
      hall _ (fun x hx => h.noTail x (hold x hx)) ?_⟩
    · simp only [sum_recLen, List.map_append, List.map_cons, List.sum_append, List.sum_cons, hrec]
      omega
    · have h1 := hp.aligned
      have h2 := hsv.aligned
      omega
    · intro hlive
      have hin := hp.inside hlive
      change p.nameLen hasFileType ≤ (p.body ++ _).length
      rw [List.length_append]
      omega
    · have hlong : (p.absorb s).recLen ≠ 12 := by
        rw [hrec]
        simp only [Slot.recLen]
        omega
      simp [Slot.isTail, hlong]

end Calls

end Dir

namespace Dir

section Runs

variable {hasFileType : Bool} {reservedTail : Nat} {slots : List Slot} {buf : Bytes}

theorem BlockOf.edit (h : BlockOf hasFileType reservedTail slots buf) (e : Edit)
    (hname : 1 ≤ e.name.length ∧ e.name.length ≤ 255) :
    e.Does hasFileType reservedTail slots buf ∧
      ∃ slots', BlockOf hasFileType reservedTail slots' (e.apply hasFileType reservedTail buf) ∧
        (e.apply hasFileType reservedTail buf).length = buf.length ∧
        (e.apply hasFileType reservedTail buf).drop (buf.length - reservedTail) =
          buf.drop (buf.length - reservedTail) := by
  have hparse := h.parseBlock_eq
  cases e with
  | add inode name fileType =>
    change 1 ≤ name.length ∧ name.length ≤ 255 at hname
    obtain ⟨hpos, hmax⟩ := hname
    suffices hsuffices : ∀ result new,
        addEntryInPlace inode name fileType hasFileType reservedTail buf = (result, new) →
        AddsEntry hasFileType slots buf inode name fileType result new ∧
          ∃ slots', BlockOf hasFileType reservedTail slots' new ∧ new.length = buf.length ∧
            new.drop (buf.length - reservedTail) = buf.drop (buf.length - reservedTail) from
      hsuffices _ _ rfl
    rintro result new hcall
    by_cases hinode : inode = 0
    · rw [addEntryInPlace, if_pos hinode] at hcall
      obtain ⟨rfl, rfl⟩ := Prod.mk.inj hcall
      exact ⟨⟨nofun, fun hlive => absurd hinode hlive, fun _ => ⟨_, rfl⟩, fun _ _ => rfl⟩, slots,
        h, rfl, rfl⟩
    · rw [addEntryInPlace_eq, h.addEntryToBlock_eq hpos hmax hinode] at hcall
      cases hinsert : insertSlot hasFileType inode name fileType slots with
      | none =>
        rw [hinsert] at hcall
        obtain ⟨rfl, rfl⟩ := Prod.mk.inj hcall
        exact ⟨⟨nofun, fun _ => ⟨fun _ => insertSlot_eq_none.mp hinsert, fun _ => rfl⟩,
          fun hzero => absurd hzero hinode, fun _ _ => rfl⟩, slots, h, rfl, rfl⟩
      | some slots' =>
        rw [hinsert] at hcall
        obtain ⟨rfl, rfl⟩ := Prod.mk.inj hcall
        obtain ⟨hlen, hvalid, hnoTail, hperm⟩ := h.inserted hmax hinode hinsert
        obtain ⟨hblock, htotal, htail⟩ := h.replace hlen hvalid hnoTail
        refine ⟨⟨fun _ => ⟨_, _, hparse, hblock.parseBlock_eq, hperm⟩, fun _ =>
          ⟨nofun, fun hfull => ?_⟩,
          fun hzero => absurd hzero hinode, nofun⟩, slots', hblock, htotal, htail⟩
        rw [insertSlot_eq_none.mpr hfull] at hinsert
        cases hinsert
  | remove name =>
    suffices hsuffices : ∀ result new, removeEntryInPlace name hasFileType reservedTail buf =
      (result, new) →
        RemovesEntry hasFileType buf name result new ∧
          ∃ slots', BlockOf hasFileType reservedTail slots' new ∧ new.length = buf.length ∧
            new.drop (buf.length - reservedTail) = buf.drop (buf.length - reservedTail) from
      hsuffices _ _ rfl
    rintro result new hcall
    rw [removeEntryInPlace_eq, h.removeEntryFromBlock_eq] at hcall
    cases hremove : removeSlot hasFileType name slots with
    | none =>
      rw [hremove] at hcall
      obtain ⟨rfl, rfl⟩ := Prod.mk.inj hcall
      have habsent := holds_false_iff.mp (removeSlot_eq_none.mp hremove)
      exact ⟨⟨nofun, ⟨fun _ => ⟨_, hparse, habsent⟩, fun _ => rfl⟩, fun _ => rfl⟩, slots,
        h, rfl, rfl⟩
    | some slots' =>
      have hremoved := removeSlot_some hremove
      obtain ⟨hlen, hvalid, hnoTail⟩ := h.removed hname.1 hname.2 hremoved
      obtain ⟨hblock, htotal, htail⟩ := h.replace hlen hvalid hnoTail
      rw [hremove] at hcall
      obtain ⟨rfl, rfl⟩ := Prod.mk.inj hcall
      refine ⟨⟨fun _ => ⟨_, hparse, ?_⟩, ⟨nofun, ?_⟩, ?_⟩, slots', hblock, htotal, htail⟩
      · rw [hblock.parseBlock_eq, hremoved.entries h.fills.valid]
      · rintro ⟨old, hold, habsent⟩
        obtain rfl := Except.ok.inj (hparse.symm.trans hold)
        rw [removeSlot_eq_none.mpr (holds_false_iff.mpr habsent)] at hremove
        cases hremove
      · rintro (hfalse | ⟨e, herror⟩)
        · cases hfalse
        · cases herror

/-- However a block in form has been edited, its records tile it and its tail is untouched, and the
next call adds its entry to what is read, removes the first of its name, or leaves the bytes as they
are. -/
theorem directory_block_edits (h : BlockOf hasFileType reservedTail slots buf) (edits : List Edit)
    (hnames : ∀ e ∈ edits, 1 ≤ e.name.length ∧ e.name.length ≤ 255) :
    ∃ slots', BlockOf hasFileType reservedTail slots'
      (runEdits hasFileType reservedTail edits buf) ∧
      (runEdits hasFileType reservedTail edits buf).length = buf.length ∧
      (runEdits hasFileType reservedTail edits buf).drop (buf.length - reservedTail) =
        buf.drop (buf.length - reservedTail) ∧
      ∀ e : Edit, 1 ≤ e.name.length ∧ e.name.length ≤ 255 →
        e.Does hasFileType reservedTail slots' (runEdits hasFileType reservedTail edits buf) := by
  induction edits generalizing slots buf with
  | nil => exact ⟨slots, h, rfl, rfl, fun e he => (h.edit e he).1⟩
  | cons e rest ih =>
    obtain ⟨-, slots₁, h₁, hlen₁, htail₁⟩ := h.edit e (hnames e List.mem_cons_self)
    obtain ⟨slots', h', hlen, htail, hdoes⟩ :=
      ih h₁ (fun x hx => hnames x (List.mem_cons_of_mem _ hx))
    refine ⟨slots', h', hlen.trans hlen₁, ?_, hdoes⟩
    rw [hlen₁] at htail
    exact htail.trans htail₁

end Runs

def oneName : Slot := ⟨11, 1, 1, 0x61 :: List.replicate 27 0⟩

def oneNameBlock : Bytes := slotBytes [oneName] ++ (⟨0, 0, tailFileType, [1, 2, 3, 4]⟩ : Slot).bytes

theorem oneNameBlock_blockOf : BlockOf true 12 [oneName] oneNameBlock where
  fills := by
    refine ⟨by decide, ?_, by decide⟩
    rintro s (_ | ⟨_, hs⟩)
    · exact ⟨by decide, fun _ => by decide⟩
    · cases hs
  noTail := by decide
  tail := .inr ⟨rfl, by decide⟩

theorem directory_block_edits_two_names : ∃ slots',
    BlockOf true 12 slots' (runEdits true 12 [.add 12 [0x62] .regFile, .remove [0x61]]
      oneNameBlock) ∧
      (Edit.remove [0x62]).Does true 12 slots'
        (runEdits true 12 [.add 12 [0x62] .regFile, .remove [0x61]] oneNameBlock) := by
  obtain ⟨slots', hblock, -, -, hdoes⟩ := directory_block_edits oneNameBlock_blockOf
    [.add 12 [0x62] .regFile, .remove [0x61]] (by decide)
  exact ⟨slots', hblock, hdoes _ (by decide)⟩

end Dir

end FsExt4
