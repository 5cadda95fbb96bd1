import FsExt4.InlineStore

namespace FsExt4

open Lib Xattr

namespace InlineDir

open Dir InlineMut

structure Stored (raw : Bytes) (inodeSize : Nat) (es : List DecodedEntry) (dir : InlineDir)
    (after : Bytes) :
    Prop where
  frame : SameOutside (fun i => (Seal.cell 0x28 60 i ∨ inArea raw inodeSize i) ∨
    (Seal.cell 0x04 4 i ∨ Seal.cell 0x6C 4 i)) raw after
  reads : ImageReads after inodeSize (Function.update (attrs es) dataKey (some dir.continuation))
  parsed : Inode.parse after = .ok { Inode.fields raw with
    size := iBlockLen + dir.continuation.length
    block := u32le dir.parent ++ dir.head }

end InlineDir

namespace InlineDir

open Dir InlineMut

section Store

variable {raw region after : Bytes} {inodeSize start stop : Nat} {es : List DecodedEntry}

theorem store_cases (h : InodeAttrs raw inodeSize es) (dir : InlineDir) :
    (∃ e, dir.store raw inodeSize = some (.error e, raw)) ∨
      ∃ after, dir.store raw inodeSize = some (.ok (), after) ∧
      Stored raw inodeSize es dir after := by
  unfold store
  cases harea : attrArea raw inodeSize with
  | none => exact .inl ⟨_, rfl⟩
  | some area =>
    obtain ⟨start, stop⟩ := area
    dsimp only
    cases hset : planSetInInodeRegion (slice raw start (stop - start)) systemData
      dir.continuation with
    | none =>
      have hsome := planSetInInodeRegion_isSome (slice raw start (stop - start)) systemData
        dir.continuation
      rw [hset] at hsome
      cases hsome
    | some pair =>
      obtain ⟨result, region⟩ := pair
      cases result with
      | error e => exact .inl ⟨e, rfl⟩
      | ok outcome =>
        right
        refine ⟨_, rfl, ?_⟩
        obtain ⟨hlen, hreads⟩ := set_image h harea hset
        obtain ⟨-, -, -, hroom, hin⟩ := attrArea_eq_some harea
        have hput := sameOutside_area harea hlen
        have hbase : 128 ≤ (copyAt raw start region).length := hreads.base
        have hhead := dir.head_length
        -- both fields of `i_block`
        have hparent : SameOutside (Seal.cell 0x28 60) (copyAt raw start region)
            (copyAt (copyAt raw start region) 0x28 (u32le dir.parent)) :=
          sameOutside_copyAt (by rw [length_u32le]; omega)
            (fun i hlow hhigh => ⟨hlow, by rw [length_u32le] at hhigh; omega⟩)
        have hedit : SameOutside (Seal.cell 0x28 60) (copyAt raw start region)
            (copyAt (copyAt (copyAt raw start region) 0x28 (u32le dir.parent)) 0x2C dir.head) :=
          hparent.trans (sameOutside_copyAt (by rw [hparent.1]; omega)
            (fun i hlow hhigh => ⟨by omega, by omega⟩))
        have hslice : slice (copyAt (copyAt (copyAt raw start region) 0x28 (u32le dir.parent))
          0x2C dir.head) 0x28 60 = u32le dir.parent ++ dir.head := by
          have hpar := slice_copyAt_self (copyAt raw start region) 0x28 (u32le dir.parent)
            (by rw [length_u32le]; omega)
          rw [length_u32le] at hpar
          have hself := slice_copyAt_self (copyAt (copyAt raw start region) 0x28 (u32le dir.parent))
            0x2C dir.head (by rw [hparent.1]; omega)
          rw [hhead] at hself
          rw [slice_add _ 0x28 4 56, hself,
            slice_copyAt_disjoint _ _ _ _ _ (by rw [hparent.1]; omega) (.inl (by decide)), hpar]
        have hframe : SameOutside (fun i => Seal.cell 0x28 60 i ∨ inArea raw inodeSize i) raw
            (copyAt (copyAt (copyAt raw start region) 0x28 (u32le dir.parent)) 0x2C dir.head) :=
          (hput.mono (fun _ hi => .inr hi)).trans (hedit.mono (fun _ hi => .inl hi))
        have hafter := hreads.of_sameOutside hedit (fun i hi => by unfold Seal.cell at hi; omega)
        have hfits : dir.continuation.length ≤ stop - start - 4 :=
          Nat.le_trans (length_le_neededToSet dataKey.1 dataKey.2 dir.continuation es)
            ((set_ok_iff h harea dir.continuation).mp ⟨outcome, region, hset⟩).2
        have hmax := (h.region_length harea).2
        obtain ⟨hparsed, hread⟩ := parse_setSize hframe hafter (Function.update_self _ _ _)
          (show iBlockLen + dir.continuation.length < 2 ^ 64 by unfold iBlockLen; omega)
        rw [hslice] at hparsed
        have hsized := sameOutside_setSize (hafter.base) (iBlockLen + dir.continuation.length)
        exact ⟨(hframe.mono (fun _ hi => .inl hi)).trans (hsized.mono (fun _ hi => .inr hi)),
          hread, hparsed⟩

end Store

end InlineDir

namespace InlineDir

open Dir InlineMut

section Load

variable {raw after : Bytes} {inodeSize blockSize : Nat} {es : List DecodedEntry} {dir : InlineDir}

theorem ext_of {a b : InlineDir} (hparent : a.parent = b.parent) (hhead : a.head = b.head)
    (hcont : a.continuation = b.continuation) : a = b := by
  cases a
  cases b
  cases hparent
  cases hhead
  cases hcont
  rfl

theorem exec_dirContinuation {raw value : Bytes} {map : UInt8 × Bytes → Option Bytes} {d : Disk}
    {inode : Inode} (hsize : inode.size = iBlockLen + value.length)
    (hvalue : value = [] ∨ ImageReads raw inodeSize map ∧ map dataKey = some value ∧
      AclReads d inode.fileAcl blockSize) :
    (InlineData.dirContinuation inode raw inodeSize blockSize).exec d = (.ok value, d) := by
  have hsixty : iBlockLen = InlineData.inlineBlockSize := rfl
  unfold InlineData.dirContinuation
  by_cases hempty : value = []
  · rw [if_pos (by rw [hsize, hempty]; exact Nat.le_refl 60), hempty]
    rfl
  · have hpos : 0 < value.length := List.length_pos_iff.mpr hempty
    obtain ⟨hreads, hmap, hacl⟩ := hvalue.resolve_left hempty
    rw [if_neg (by omega), Io.exec_bind_ok _ _ _ _ _ (exec_get_systemData hreads hacl hmap)]
    dsimp only
    rw [if_neg (by omega), hsize, hsixty, Nat.add_sub_cancel_left, List.take_length]
    rfl

theorem exec_load {raw : Bytes} {map : UInt8 × Bytes → Option Bytes} {d : Disk} {inode : Inode}
    (hsize : inode.size = iBlockLen + dir.continuation.length)
    (hvalue : dir.continuation = [] ∨ ImageReads raw inodeSize map ∧ map dataKey =
      some dir.continuation ∧
      AclReads d inode.fileAcl blockSize)
    (hblock : slice raw 0x28 60 = u32le dir.parent ++ dir.head)
      (hraw : inodeBaseSize ≤ raw.length) :
    (InlineDir.load inode raw hraw inodeSize blockSize).exec d = (.ok dir, d) := by
  have hlen := dir.head_length
  have hparent : u32leAt raw 0x28 = dir.parent := by
    apply u32leAt_of_slice
    rw [← slice_slice raw 0x28 60 0 4 (by decide), hblock, slice_append_left _ _ _ _ (by simp)]
    exact slice_zero_of_length_le _ _ (by simp)
  have hhead : slice raw 0x2C 56 = dir.head := by
    rw [← slice_slice raw 0x28 60 4 56 (by decide), hblock, slice_append_right _ _ _ _ (by simp),
      length_u32le]
    exact slice_zero_of_length_le _ _ (Nat.le_of_eq hlen)
  unfold InlineDir.load
  rw [Io.exec_bind_ok _ _ _ _ _ (exec_dirContinuation hsize hvalue)]
  exact congrArg (fun x => (Except.ok x, d)) (ext_of hparent hhead rfl)

theorem Stored.load (h : Stored raw inodeSize es dir after) {d : Disk} {inode : Inode}
    (hparse : Inode.parse after = .ok inode) (hraw : inodeBaseSize ≤ after.length)
    (hacl : dir.continuation = [] ∨ AclReads d inode.fileAcl blockSize) :
    (InlineDir.load inode after hraw inodeSize blockSize).exec d = (.ok dir, d) := by
  obtain rfl := Except.ok.inj (h.parsed.symm.trans hparse)
  have hfields := (Inode.parse_eq_ok.mp h.parsed).2
  exact exec_load rfl (hacl.imp_right (fun hacl => ⟨h.reads, Function.update_self _ _ _, hacl⟩))
    (congrArg Inode.block hfields).symm hraw

end Load

end InlineDir

namespace Dir

section Area

variable {hasFileType : Bool} {slots : List Slot} {buf : Bytes} {inode : UInt32} {name : Bytes}
  {fileType : DirEntryType}

theorem BlockOf.addInPlace (h : BlockOf hasFileType 0 slots buf) (hpos : 1 ≤ name.length)
    (hmax : name.length ≤ 255) (hinode : inode ≠ 0) :
    (∃ slots', insertSlot hasFileType inode name fileType slots = some slots' ∧
      addEntryInPlace inode name fileType hasFileType 0 buf = (.ok (), slotBytes slots') ∧
      BlockOf hasFileType 0 slots' (slotBytes slots') ∧ (slotBytes slots').length = buf.length ∧
      (slotEntries hasFileType slots').Perm
        (newEntry hasFileType inode name fileType :: slotEntries hasFileType slots)) ∨
      insertSlot hasFileType inode name fileType slots = none ∧
        addEntryInPlace inode name fileType hasFileType 0 buf = (.error .outOfBounds, buf) := by
  rw [addEntryInPlace_eq, h.addEntryToBlock_eq hpos hmax hinode]
  cases hinsert : insertSlot hasFileType inode name fileType slots with
  | none => exact .inr ⟨rfl, rfl⟩
  | some slots' =>
    obtain ⟨hlen, hvalid, hnoTail, hperm⟩ := h.inserted hmax hinode hinsert
    obtain ⟨hblock, htotal, -⟩ := h.replace hlen hvalid hnoTail
    rw [Nat.sub_zero, List.drop_length, List.append_nil] at hblock htotal
    dsimp only
    rw [Nat.sub_zero, List.drop_length, List.append_nil]
    exact .inl ⟨slots', rfl, rfl, hblock, htotal, hperm⟩

theorem BlockOf.removeInPlace (h : BlockOf hasFileType 0 slots buf) (hpos : 1 ≤ name.length)
    (hmax : name.length ≤ 255) :
    (∃ slots', removeEntryInPlace name hasFileType 0 buf = (.ok true, slotBytes slots') ∧
      BlockOf hasFileType 0 slots' (slotBytes slots') ∧ (slotBytes slots').length = buf.length ∧
      (∃ e ∈ slotEntries hasFileType slots, e.name = name) ∧
      slotEntries hasFileType slots' = (slotEntries hasFileType slots).eraseP
        (fun e => e.name == name)) ∨
      removeEntryInPlace name hasFileType 0 buf = (.ok false, buf) ∧
        ∀ e ∈ slotEntries hasFileType slots, e.name ≠ name := by
  rw [removeEntryInPlace_eq, h.removeEntryFromBlock_eq]
  cases hremove : removeSlot hasFileType name slots with
  | none => exact .inr ⟨rfl, holds_false_iff.mp (removeSlot_eq_none.mp hremove)⟩
  | some slots' =>
    have hremoved := removeSlot_some hremove
    obtain ⟨hlen, hvalid, hnoTail⟩ := h.removed hpos hmax hremoved
    obtain ⟨hblock, htotal, -⟩ := h.replace hlen hvalid hnoTail
    rw [Nat.sub_zero, List.drop_length, List.append_nil] at hblock htotal
    dsimp only [Option.map]
    rw [Nat.sub_zero, List.drop_length, List.append_nil]
    refine .inl ⟨slots', rfl, hblock, htotal, ?_, hremoved.entries h.fills.valid⟩
    by_contra hnone
    have habsent : ∀ e ∈ slotEntries hasFileType slots, e.name ≠ name :=
      fun e he hname => hnone ⟨e, he, hname⟩
    rw [removeSlot_eq_none.mpr (holds_false_iff.mpr habsent)] at hremove
    cases hremove

end Area

end Dir

namespace InlineDir

open Dir InlineMut

structure Tiled (hasFileType : Bool) (headSlots contSlots : List Slot)
    (dir : InlineDir) : Prop where
  head : BlockOf hasFileType 0 headSlots dir.head
  continuation : BlockOf hasFileType 0 contSlots dir.continuation

def Full (hasFileType : Bool) (name : Bytes) (slots : List Slot) : Prop :=
  ∀ s ∈ slots, s.room hasFileType < entryRecLen name.length

section Edits

variable {hasFileType : Bool} {headSlots contSlots : List Slot} {dir : InlineDir} {ino : UInt32}
  {name : Bytes} {fileType : DirEntryType}

theorem Tiled.entries_eq (h : Tiled hasFileType headSlots contSlots dir) :
    dir.entries hasFileType = .ok (slotEntries hasFileType (headSlots ++ contSlots)) := by
  unfold entries
  rw [h.head.parseBlock_eq, h.continuation.parseBlock_eq, slotEntries_append]
  rfl

theorem inHead_eq {α : Type} {edit : Result α × Bytes} {result : Result α} {new : Bytes}
    (hedit : edit.2.length = dir.head.length) (h : edit = (result, new)) (hnew : new.length = 56) :
    dir.inHead edit hedit = (result, { dir with head := new, head_length := hnew }) := by
  subst h
  rfl

theorem Tiled.add_cases (h : Tiled hasFileType headSlots contSlots dir) (hpos : 1 ≤ name.length)
    (hmax : name.length ≤ 255) (hinode : ino ≠ 0) :
    (∃ headSlots' contSlots' dir', dir.add ino name fileType hasFileType = (.ok true, dir') ∧
      Tiled hasFileType headSlots' contSlots' dir' ∧ dir'.parent = dir.parent ∧
      dir'.continuation.length = dir.continuation.length ∧
      (slotEntries hasFileType (headSlots' ++ contSlots')).Perm
        (newEntry hasFileType ino name fileType :: slotEntries hasFileType
          (headSlots ++ contSlots))) ∨
      dir.add ino name fileType hasFileType = (.ok false, dir) ∧ Full hasFileType name
        (headSlots ++ contSlots) := by
  unfold add
  rcases @BlockOf.addInPlace _ _ _ _ _ fileType h.head hpos hmax hinode with
    ⟨headSlots', -, hadd, hblock, hlen, hperm⟩ | ⟨hnone, hadd⟩
  · left
    rw [inHead_eq _ hadd (hlen.trans dir.head_length)]
    refine ⟨headSlots', contSlots, _, rfl, ⟨hblock, h.continuation⟩, rfl, rfl, ?_⟩
    rw [slotEntries_append, slotEntries_append]
    exact hperm.append_right _
  · rw [inHead_eq _ hadd dir.head_length]
    dsimp only [inContinuation]
    rcases @BlockOf.addInPlace _ _ _ _ _ fileType h.continuation hpos hmax hinode with
      ⟨contSlots', -, hcont, hblock, hlen, hperm⟩ | ⟨hcontNone, hcont⟩
    · left
      rw [hcont]
      refine ⟨headSlots, contSlots', _, rfl, ⟨h.head, hblock⟩, rfl, hlen, ?_⟩
      rw [slotEntries_append, slotEntries_append]
      exact (hperm.append_left _).trans List.perm_middle
    · right
      rw [hcont]
      refine ⟨rfl, fun s hs => ?_⟩
      obtain hs | hs := List.mem_append.mp hs
      · exact insertSlot_eq_none.mp hnone s hs
      · exact insertSlot_eq_none.mp hcontNone s hs

theorem Tiled.remove_cases (h : Tiled hasFileType headSlots contSlots dir) (hpos : 1 ≤ name.length)
    (hmax : name.length ≤ 255) :
    (∃ headSlots' contSlots' dir', dir.remove name hasFileType = (.ok true, dir') ∧
      Tiled hasFileType headSlots' contSlots' dir' ∧ dir'.parent = dir.parent ∧
      dir'.continuation.length = dir.continuation.length ∧
      (∃ e ∈ slotEntries hasFileType (headSlots ++ contSlots), e.name = name) ∧
      slotEntries hasFileType (headSlots' ++ contSlots') =
        (slotEntries hasFileType (headSlots ++ contSlots)).eraseP (fun e => e.name == name)) ∨
      dir.remove name hasFileType = (.ok false, dir) ∧
        ∀ e ∈ slotEntries hasFileType (headSlots ++ contSlots), e.name ≠ name := by
  unfold remove
  rw [slotEntries_append]
  rcases h.head.removeInPlace hpos hmax with ⟨headSlots', hremove, hblock, hlen,
    ⟨e, he, hname⟩, hentries⟩ |
    ⟨hremove, habsent⟩
  · left
    rw [inHead_eq _ hremove (hlen.trans dir.head_length)]
    refine ⟨headSlots', contSlots, _, rfl, ⟨hblock, h.continuation⟩, rfl, rfl,
      ⟨e, List.mem_append_left _ he, hname⟩, ?_⟩
    have hfirst := @List.eraseP_append_left _ (fun e : DirEntry => e.name == name) e
      (beq_iff_eq.mpr hname)
      (slotEntries hasFileType headSlots) (slotEntries hasFileType contSlots) he
    rw [slotEntries_append, hentries, hfirst]
  · rw [inHead_eq _ hremove dir.head_length]
    dsimp only [inContinuation]
    rcases h.continuation.removeInPlace hpos hmax with
      ⟨contSlots', hcont, hblock, hlen, ⟨e, he, hname⟩, hentries⟩ | ⟨hcont, hcontAbsent⟩
    · left
      rw [hcont]
      refine ⟨headSlots, contSlots', _, rfl, ⟨h.head, hblock⟩, rfl, hlen,
        ⟨e, List.mem_append_right _ he, hname⟩, ?_⟩
      rw [slotEntries_append, hentries,
        List.eraseP_append_right _ (fun x hx => by simpa using habsent x hx)]
    · right
      rw [hcont]
      refine ⟨rfl, fun e he => ?_⟩
      obtain he | he := List.mem_append.mp he
      · exact habsent e he
      · exact hcontAbsent e he

end Edits

end InlineDir

namespace InlineDir

open Dir InlineMut

def Storable (raw : Bytes) (inodeSize len : Nat) : Prop :=
  ∀ dir : InlineDir, dir.continuation.length = len → ∃ after, dir.store raw inodeSize =
    some (.ok (), after)

section Fits

variable {raw : Bytes} {inodeSize start stop : Nat} {es : List DecodedEntry}

theorem fits_iff (h : InodeAttrs raw inodeSize es)
    (harea : attrArea raw inodeSize = some (start, stop))
    (value : Bytes) : fits (slice raw start (stop - start)) value.length = true ↔
      ∃ outcome region, planSetInInodeRegion (slice raw start (stop - start)) systemData value =
        some (.ok outcome, region) := by
  have hzeros : (List.replicate value.length (0 : UInt8)).length = value.length :=
    List.length_replicate
  have hneeded : neededToSet dataKey.1 dataKey.2 (List.replicate value.length 0) es =
      neededToSet dataKey.1 dataKey.2 value es :=
    Nat.le_antisymm (neededToSet_mono es (Nat.le_of_eq hzeros))
      (neededToSet_mono es (Nat.le_of_eq hzeros.symm))
  rw [set_ok_iff h harea, ← hneeded, ← set_ok_iff h harea]
  unfold fits
  split
  · rename_i outcome region hset
    exact ⟨fun _ => ⟨outcome, region, hset⟩, fun _ => rfl⟩
  · rename_i hother
    refine ⟨nofun, ?_⟩
    rintro ⟨outcome, region, hset⟩
    exact absurd hset (hother outcome region)

theorem fits_mono (h : InodeAttrs raw inodeSize es)
    (harea : attrArea raw inodeSize = some (start, stop))
    {m n : Nat} (hmn : m ≤ n) (hn : fits (slice raw start (stop - start)) n = true) :
    fits (slice raw start (stop - start)) m = true := by
  have hlen : ∀ k, (List.replicate k (0 : UInt8)).length = k := fun k => List.length_replicate
  rw [← hlen n, fits_iff h harea, set_ok_iff h harea] at hn
  rw [← hlen m, fits_iff h harea, set_ok_iff h harea]
  exact ⟨hn.1, Nat.le_trans (neededToSet_mono es (by rwa [hlen, hlen])) hn.2⟩

theorem le_of_fits (h : InodeAttrs raw inodeSize es)
    (harea : attrArea raw inodeSize = some (start, stop))
    {n : Nat} (hn : fits (slice raw start (stop - start)) n = true) : n ≤ stop - start - 4 := by
  have hlen : (List.replicate n (0 : UInt8)).length = n := List.length_replicate
  rw [← hlen, fits_iff h harea, set_ok_iff h harea] at hn
  have hle := Nat.le_trans (length_le_neededToSet _ _ _ _) hn.2
  rwa [hlen] at hle

theorem storable_iff (h : InodeAttrs raw inodeSize es)
    (harea : attrArea raw inodeSize = some (start, stop))
    (len : Nat) : Storable raw inodeSize len ↔ fits (slice raw start (stop - start))
      len = true := by
  have hstore : ∀ dir : InlineDir, (∃ after, dir.store raw inodeSize = some (.ok (), after)) ↔
      fits (slice raw start (stop - start)) dir.continuation.length = true := by
    intro dir
    rw [fits_iff h harea]
    unfold store
    rw [harea]
    dsimp only
    constructor
    · rintro ⟨after, hafter⟩
      split at hafter
      · cases hafter
      · cases hafter
      · rename_i outcome region hset
        exact ⟨outcome, region, hset⟩
    · rintro ⟨outcome, region, hset⟩
      rw [hset]
      exact ⟨_, rfl⟩
  constructor
  · intro hall
    have hlen : (List.replicate len (0 : UInt8)).length = len := List.length_replicate
    have hone := (hstore ⟨0, List.replicate 56 0, List.replicate len 0, List.length_replicate⟩).mp
      (hall _ hlen)
    rwa [hlen] at hone
  · rintro hfits dir rfl
    exact (hstore dir).mpr hfits

end Fits

theorem largestFit_spec (region : Bytes) (turns lo hi : Nat) (hturns : hi ≤ lo + turns + 1)
    (hlt : lo < hi)
    (hlo : lo = 0 ∨ fits region (lo * 4) = true) (hhi : fits region (hi * 4) = false) :
    (largestFit region turns lo hi = 0 ∨ fits region (largestFit region turns lo hi * 4) = true) ∧
      fits region ((largestFit region turns lo hi + 1) * 4) = false := by
  induction turns generalizing lo hi with
  | zero =>
    obtain rfl : hi = lo + 1 := by omega
    exact ⟨hlo, hhi⟩
  | succ turns ih =>
    rw [largestFit]
    by_cases hmore : lo + 1 < hi
    · rw [if_pos hmore]
      dsimp only
      cases hmid : fits region ((lo + hi) / 2 * 4) with
      | true =>
        rw [if_pos rfl]
        exact ih _ _ (by omega) (by omega) (.inr hmid) hhi
      | false =>
        rw [if_neg Bool.false_ne_true]
        exact ih _ _ (by omega) (by omega) hlo hmid
    · obtain rfl : hi = lo + 1 := by omega
      rw [if_neg hmore]
      exact ⟨hlo, hhi⟩

section Expand

variable {raw : Bytes} {inodeSize : Nat} {es : List DecodedEntry}

/-- What is made of a directory without a continuation, when something is. -/
structure Expanded (raw : Bytes) (inodeSize : Nat) (dir : InlineDir) (len : Nat)
    (dir' : InlineDir) : Prop where
  empty : dir.continuation = []
  parent : dir'.parent = dir.parent
  head : dir'.head = dir.head
  continuation : dir'.continuation = emptyRecord len
  bounds : minContinuation ≤ len ∧ len < 2 ^ 16
  storable : Storable raw inodeSize len
  aligned : len % 4 = 0
  largest : ∀ m, m % 4 = 0 → Storable raw inodeSize m → m ≤ len

theorem expand_cases (h : InodeAttrs raw inodeSize es) (dir : InlineDir) :
    dir.expand raw inodeSize = (false, dir) ∨
      ∃ len dir', dir.expand raw inodeSize = (true, dir') ∧
      Expanded raw inodeSize dir len dir' := by
  unfold expand
  by_cases hempty : dir.continuation = []
  · rw [hempty, List.isEmpty_nil, Bool.not_true, if_neg Bool.false_ne_true]
    cases harea : attrArea raw inodeSize with
    | none => exact .inl rfl
    | some area =>
      obtain ⟨start, stop⟩ := area
      have hover : fits (slice raw start (stop - start)) (((stop - start) / 4 + 1) * 4) =
          false := by
        cases hfits : fits (slice raw start (stop - start)) (((stop - start) / 4 + 1) * 4) with
        | false => rfl
        | true =>
          have hle := le_of_fits h harea hfits
          omega
      have hspec := largestFit_spec (slice raw start (stop - start)) ((stop - start) / 4 + 1) 0
        ((stop - start) / 4 + 1) (by omega) (Nat.succ_pos _) (.inl rfl) hover
      dsimp only
      generalize largestFit (slice raw start (stop - start)) ((stop - start) / 4 + 1) 0
        ((stop - start) / 4 + 1) = units at hspec ⊢
      by_cases hbounds : units * 4 < minContinuation ∨ 2 ^ 16 ≤ units * 4
      · rw [if_pos hbounds]
        exact .inl rfl
      · rw [if_neg hbounds]
        have hmin : minContinuation = 12 := rfl
        have hfits := hspec.1.resolve_left (by omega)
        refine .inr ⟨units * 4, _, rfl, hempty, rfl, rfl, rfl, by omega,
          (storable_iff h harea _).mpr hfits, Nat.mul_mod_left _ _, ?_⟩
        intro m hm hstorable
        by_contra hlong
        have hnext := fits_mono h harea (show (units + 1) * 4 ≤ m by omega)
          ((storable_iff h harea m).mp hstorable)
        rw [hspec.2] at hnext
        cases hnext
  · left
    rw [if_pos (by simpa using hempty)]

end Expand

def emptySlot (len : Nat) : Slot := ⟨0, 0, 0, List.replicate (len - 8) 0⟩

theorem length_emptyRecord {len : Nat} (h : 6 ≤ len) : (emptyRecord len).length = len := by
  rw [emptyRecord, length_copyAt _ _ _ (by rw [length_u16le, List.length_replicate]; exact h),
    List.length_replicate]

theorem emptyRecord_blockOf (hasFileType : Bool) {len : Nat} (hmin : 12 ≤ len) (hmax : len < 2 ^ 16)
    (haligned : len % 4 = 0) : BlockOf hasFileType 0 [emptySlot len] (emptyRecord len) := by
  have hrec : (emptySlot len).recLen = len := by
    simp only [emptySlot, Slot.recLen, List.length_replicate]
    omega
  have hbytes : slotBytes [emptySlot len] = emptyRecord len := by
    have hzeros : List.replicate (len - 6) (0 : UInt8) = [0, 0] ++ List.replicate (len - 8) 0 := by
      rw [show len - 6 = 2 + (len - 8) by omega, ← List.replicate_append_replicate]
      rfl
    have hinode : u32le 0 = List.replicate 4 0 := rfl
    rw [slotBytes_cons, Slot.bytes, hrec, emptyRecord, copyAt, List.take_replicate,
      List.drop_replicate, length_u16le, Nat.min_eq_left (by omega), hzeros]
    simp only [emptySlot, hinode, slotBytes, List.flatMap_nil, List.append_nil, List.append_assoc]
  have hlen := length_emptyRecord (show 6 ≤ len by omega)
  refine ⟨⟨?_, ?_, ?_⟩, ?_, .inl rfl⟩
  · rw [Nat.sub_zero, List.take_length, hbytes]
  · rw [List.forall_mem_singleton]
    exact ⟨by rw [hrec]; exact haligned, fun hlive => absurd rfl hlive⟩
  · rw [Nat.sub_zero, List.take_length, hlen]
    omega
  · rw [List.forall_mem_singleton]
    have htype : ((0 : UInt8) == tailFileType) = false := by decide
    simp [emptySlot, Slot.isTail, htype]

theorem Expanded.tiled {hasFileType : Bool} {raw : Bytes} {inodeSize len : Nat}
    {dir dir' : InlineDir}
    {headSlots contSlots : List Slot} (he : Expanded raw inodeSize dir len dir')
    (h : Tiled hasFileType headSlots contSlots dir) : Tiled hasFileType headSlots
      [emptySlot len] dir' ∧
      slotEntries hasFileType (headSlots ++ [emptySlot len]) =
        slotEntries hasFileType (headSlots ++ contSlots) := by
  obtain ⟨hmin, hmax⟩ := he.bounds
  have hnone : contSlots = [] := by
    have hlen := h.continuation.length_area
    rw [he.empty] at hlen
    have hcount := length_le_slotBytes contSlots
    rw [hlen] at hcount
    exact List.length_eq_zero_iff.mp (Nat.le_zero.mp hcount)
  refine ⟨⟨by rw [he.head]; exact h.head, ?_⟩, ?_⟩
  · rw [he.continuation]
    exact emptyRecord_blockOf hasFileType hmin hmax he.aligned
  · rw [hnone, slotEntries_append, slotEntries_append, slotEntries_unused rfl]

section Adds

variable {hasFileType : Bool}

theorem length_continuation_add (dir : InlineDir) (ino : UInt32) (name : Bytes)
    (fileType : DirEntryType) :
    (dir.add ino name fileType hasFileType).2.continuation.length = dir.continuation.length := by
  have hkeep := @length_addEntryInPlace ino name fileType hasFileType 0 dir.continuation
  unfold add
  generalize hh : dir.inHead (addEntryInPlace ino name fileType hasFileType 0 dir.head)
    (length_addEntryInPlace 0 dir.head) = edited
  obtain ⟨result, dir'⟩ := edited
  have hcont : dir'.continuation = dir.continuation := congrArg (fun x => x.2.continuation) hh.symm
  dsimp only [inContinuation]
  split
  · rename_i heq
    obtain ⟨-, rfl⟩ := Prod.mk.inj heq
    rw [hcont]
  · rename_i heq
    obtain ⟨-, rfl⟩ := Prod.mk.inj heq
    rw [hcont]
    generalize addEntryInPlace ino name fileType hasFileType 0 dir.continuation = second at hkeep
    obtain ⟨result, new⟩ := second
    dsimp only
    split <;> rename_i heq <;> obtain ⟨-, rfl⟩ := Prod.mk.inj heq <;> exact hkeep
  · rename_i heq
    obtain ⟨-, rfl⟩ := Prod.mk.inj heq
    rw [hcont]

def addAll (hasFileType : Bool) (dir : InlineDir) (adds : List (UInt32 × Bytes × DirEntryType)) :
    InlineDir :=
  adds.foldl (fun dir a => (dir.add a.1 a.2.1 a.2.2 hasFileType).2) dir

theorem length_continuation_addAll (dir : InlineDir) (adds : List (UInt32 × Bytes × DirEntryType)) :
    (addAll hasFileType dir adds).continuation.length = dir.continuation.length := by
  induction adds generalizing dir with
  | nil => rfl
  | cons a rest ih => exact (ih _).trans (length_continuation_add dir a.1 a.2.1 a.2.2)

theorem Expanded.store_addAll {raw : Bytes} {inodeSize len : Nat} {dir dir' : InlineDir}
    (he : Expanded raw inodeSize dir len dir') (adds : List (UInt32 × Bytes × DirEntryType)) :
    ∃ after, (addAll hasFileType dir' adds).store raw inodeSize = some (.ok (), after) := by
  have hlen : dir'.continuation.length = len := by
    have hmin : 12 ≤ len := he.bounds.1
    rw [he.continuation, length_emptyRecord (by omega)]
  exact he.storable _ ((length_continuation_addAll dir' adds).trans hlen)

end Adds

end InlineDir

namespace InlineMut

open Dir

/-- What storing, stripping and making room do to an inode's image with these attributes. -/
structure StoresAndLoads (raw : Bytes) (inodeSize : Nat) (es : List DecodedEntry) : Prop where
  file : ∀ data, (∃ e, store raw inodeSize data = some (.error e, raw)) ∨
    ∃ after, store raw inodeSize data = some (.ok (), after) ∧ Stored raw inodeSize es data after ∧
      ∀ (d : Disk) (inode : Inode) (blockSize : Nat),
      Inode.parse (setSize after data.length) = .ok inode →
        data.length ≤ iBlockLen ∨ AclReads d inode.fileAcl blockSize →
        (InlineData.readAll inode (setSize after data.length) inodeSize blockSize).exec d =
          (.ok data, d)
  strip : (∃ e, strip raw inodeSize = some (.error e, raw)) ∨
    ∃ after, strip raw inodeSize = some (.ok (), after) ∧ Stripped raw inodeSize es after
  directory : ∀ dir : InlineDir, (∃ e, dir.store raw inodeSize = some (.error e, raw)) ∨
    ∃ after, dir.store raw inodeSize = some (.ok (), after) ∧
    InlineDir.Stored raw inodeSize es dir after ∧
      ∀ (d : Disk) (inode : Inode) (blockSize : Nat) (hraw : inodeBaseSize ≤ after.length),
        Inode.parse after = .ok inode → dir.continuation = [] ∨ AclReads d inode.fileAcl blockSize →
        (InlineDir.load inode after hraw inodeSize blockSize).exec d = (.ok dir, d)
  room : ∀ dir : InlineDir, dir.expand raw inodeSize = (false, dir) ∨
    ∃ len dir', dir.expand raw inodeSize = (true, dir') ∧ InlineDir.Expanded raw inodeSize
      dir len dir' ∧
      ∀ hasFileType adds, ∃ after,
        (InlineDir.addAll hasFileType dir' adds).store raw inodeSize = some (.ok (), after)

/-- What an add and a remove do to the entries of a directory of these records. -/
structure EditsOneEntry (hasFileType : Bool) (slots : List Dir.Slot) (dir : InlineDir) : Prop where
  entries : dir.entries hasFileType = .ok (Dir.slotEntries hasFileType slots)
  add : ∀ (ino : UInt32) (name : Bytes) (fileType : DirEntryType),
    ino ≠ 0 → 1 ≤ name.length → name.length ≤ 255 →
    (dir.add ino name fileType hasFileType = (.ok false, dir) ∧
    InlineDir.Full hasFileType name slots) ∨
      ∃ dir' now, dir.add ino name fileType hasFileType = (.ok true, dir') ∧
        dir'.entries hasFileType = .ok now ∧
        now.Perm (Dir.newEntry hasFileType ino name fileType :: Dir.slotEntries hasFileType slots)
  remove : ∀ name : Bytes, 1 ≤ name.length → name.length ≤ 255 →
    (dir.remove name hasFileType = (.ok false, dir) ∧ ∀ e ∈ Dir.slotEntries hasFileType slots,
    e.name ≠ name) ∨
      ∃ dir', dir.remove name hasFileType = (.ok true, dir') ∧
        (∃ e ∈ Dir.slotEntries hasFileType slots, e.name = name) ∧
        dir'.entries hasFileType = .ok ((Dir.slotEntries hasFileType slots).eraseP
          (fun e => e.name == name))

theorem stores_and_loads {raw : Bytes} {inodeSize : Nat} {es : List DecodedEntry}
    (h : InodeAttrs raw inodeSize es) : StoresAndLoads raw inodeSize es where
  file := by
    intro data
    rcases store_cases h data with herror | ⟨start, stop, region, harea, hlen, hreads,
      hceiling, hstore⟩
    · exact .inl herror
    · have hsize := h.size_lt
      have hdata : data.length < 2 ^ 64 := by
        unfold ceiling iBlockLen at hceiling
        omega
      have hstored := Stored.of_region harea hlen hreads hdata
      exact .inr ⟨_, hstore, hstored, fun d inode blockSize hparse hacl =>
        hstored.readAll hdata hparse hacl⟩
  strip := strip_cases h
  directory := by
    intro dir
    obtain herror | ⟨after, hstore, hstored⟩ := InlineDir.store_cases h dir
    · exact .inl herror
    · exact .inr ⟨after, hstore, hstored, fun d inode blockSize hraw hparse hacl =>
        hstored.load hparse hraw hacl⟩
  room := by
    intro dir
    obtain hfalse | ⟨len, dir', hexpand, hexpanded⟩ := InlineDir.expand_cases h dir
    · exact .inl hfalse
    · exact .inr ⟨len, dir', hexpand, hexpanded, fun hasFileType adds =>
        hexpanded.store_addAll adds⟩

theorem edits_one_entry {hasFileType : Bool} {headSlots contSlots : List Dir.Slot} {dir : InlineDir}
    (h : InlineDir.Tiled hasFileType headSlots contSlots dir) :
    EditsOneEntry hasFileType (headSlots ++ contSlots) dir where
  entries := h.entries_eq
  add := by
    intro ino name fileType hino hpos hmax
    rcases h.add_cases hpos hmax hino with ⟨headSlots', contSlots', dir', hadd, htiled, -, -,
      hperm⟩ | hfull
    · exact .inr ⟨dir', _, hadd, htiled.entries_eq, hperm⟩
    · exact .inl hfull
  remove := by
    intro name hpos hmax
    rcases h.remove_cases hpos hmax with ⟨headSlots', contSlots', dir', hremove, htiled, -, -,
      hfound, hentries⟩ |
      habsent
    · refine .inr ⟨dir', hremove, hfound, ?_⟩
      rw [htiled.entries_eq, hentries]
    · exact .inl habsent

/-- An inode of 256 bytes with a `user.a` of five bytes and room for more. -/
def attributedImage : Bytes :=
  copyAt (copyAt (List.replicate 256 0) 0x80 (u16le 32)) 160
    (u32le xattrMagic ++ [1, 1, 84, 0, 0, 0, 0, 0, 5, 0, 0, 0, 0, 0, 0, 0, 0x61, 0, 0, 0] ++
      List.replicate 64 0 ++ [1, 2, 3, 4, 5, 0, 0, 0])

def userAttr : DecodedEntry := ⟨1, [0x61], [1, 2, 3, 4, 5], 0⟩

theorem attributedImage_attrs : InodeAttrs attributedImage 256 [userAttr] := by
  have harea : attrArea attributedImage 256 = some (160, 256) := by decide +kernel
  have hextents : extentsFrom ((slice attributedImage 160 96).drop 4) [userAttr] 0 = [(84, 8)] := by
    decide +kernel
  refine .of_area harea (by decide) ⟨by decide +kernel, by decide, by decide, by decide, ⟨?_, ?_⟩⟩
  · change ∀ r ∈ extentsFrom ((slice attributedImage 160 96).drop 4) [userAttr] 0, _
    rw [hextents]
    decide +kernel
  · change (extentsFrom ((slice attributedImage 160 96).drop 4) [userAttr] 0).Pairwise Apart
    rw [hextents]
    exact List.pairwise_singleton _ _

def headSlots : List Slot :=
  [⟨13, 3, 2, [0x73, 0x75, 0x62, 0]⟩, ⟨15, 4, 1, [0x66, 0x69, 0x6C, 0x65] ++ List.replicate 32 0⟩]

def contSlots : List Slot := [⟨15, 4, 1, [0x6C, 0x69, 0x6E, 0x6B] ++ List.replicate 12 0⟩]

theorem length_headSlots : (slotBytes headSlots).length = 56 := by decide +kernel

def continuedDir : InlineDir where
  parent := 2
  head := slotBytes headSlots
  continuation := slotBytes contSlots
  head_length := length_headSlots

theorem headSlots_blockOf : BlockOf true 0 headSlots continuedDir.head where
  fills := {
    bytes := by decide +kernel
    valid := by
      intro s hs
      obtain rfl | rfl : s = headSlots[0] ∨ s = headSlots[1] := by simpa [headSlots] using hs
      · exact ⟨by decide, fun _ => by decide⟩
      · exact ⟨by decide, fun _ => by decide⟩
    size := by decide +kernel }
  noTail := by decide
  tail := .inl rfl

theorem contSlots_blockOf : BlockOf true 0 contSlots continuedDir.continuation where
  fills := {
    bytes := by decide +kernel
    valid := by
      intro s hs
      obtain rfl := List.mem_singleton.mp hs
      exact ⟨by decide, fun _ => by decide⟩
    size := by decide +kernel }
  noTail := by decide
  tail := .inl rfl

theorem continuedDir_tiled : InlineDir.Tiled true headSlots contSlots continuedDir :=
  ⟨headSlots_blockOf, contSlots_blockOf⟩

theorem exists_store {raw : Bytes} {inodeSize start stop : Nat} {es : List DecodedEntry}
    (h : InodeAttrs raw inodeSize es) (harea : attrArea raw inodeSize = some (start, stop))
    (hvalues : ∀ e ∈ es, e.valueInum = 0) {data : Bytes} (hlen : data.length ≤ ceiling inodeSize)
    (hroom : neededToSet dataKey.1 dataKey.2 (data.drop (min data.length iBlockLen)) es ≤
      stop - start - 4) :
    ∃ after, store raw inodeSize data = some (.ok (), after) := by
  obtain ⟨outcome, region, hset⟩ := (set_ok_iff h harea _).mpr ⟨hvalues, hroom⟩
  unfold store
  rw [if_neg (Nat.not_lt.mpr hlen), harea]
  dsimp only
  rw [hset]
  exact ⟨_, rfl⟩

/-- An inode of 256 bytes with room for attributes, whose `i_file_acl` names block 1. -/
def blockedImage : Bytes :=
  copyAt (copyAt (List.replicate 256 0) 0x68 (u32le 1)) 0x80 (u16le 32)

theorem blockedImage_attrs : InodeAttrs blockedImage 256 [] := by
  have harea : attrArea blockedImage 256 = some (160, 256) := by decide +kernel
  refine .of_area harea (by decide) ⟨by decide +kernel, List.nodup_nil, ?_, ?_, ?_, .nil⟩
  all_goals exact fun _ h => absurd h List.not_mem_nil

def noBlocks : Disk := ⟨0, fun _ => 0⟩

theorem exec_readAll_noBlocks (inode : Inode) (raw : Bytes) (inodeSize : Nat)
    (hsize : InlineData.inlineBlockSize < inode.size) (hacl : inode.fileAcl ≠ 0) :
    ∃ e, (InlineData.readAll inode raw inodeSize 1024).exec noBlocks = (.error e, noBlocks) := by
  have hread : ∃ e, (Xattr.readAll inode raw inodeSize 1024).exec noBlocks =
      (.error e, noBlocks) := by
    unfold Xattr.readAll
    cases hinner : inInode raw inodeSize with
    | error e => exact ⟨e, rfl⟩
    | ok inner =>
      have hpast : (readAt (inode.fileAcl * 1024) 1024).exec noBlocks = (.error .io, noBlocks) :=
        exec_readAt_past noBlocks _ _ (by change ¬ inode.fileAcl * 1024 + 1024 ≤ 0; omega)
      rw [Io.exec_bind_ok _ _ _ _ _ (Io.exec_liftM _ _), if_neg hacl,
        Io.exec_bind_error _ _ _ _ _ hpast]
      exact ⟨_, rfl⟩
  obtain ⟨e, hread⟩ := hread
  have hget : (Xattr.get inode raw inodeSize 1024 systemData).exec noBlocks =
      (.error e, noBlocks) := by
    unfold Xattr.get
    rw [Io.exec_bind_error _ _ _ _ _ hread]
  unfold InlineData.readAll
  dsimp only
  rw [if_neg (Nat.not_le.mpr hsize), Io.exec_bind_error _ _ _ _ _ hget]
  exact ⟨e, rfl⟩

end InlineMut

end FsExt4
