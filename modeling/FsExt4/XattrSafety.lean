import FsExt4.XattrEdit
import Mathlib.Algebra.BigOperators.Group.List.Basic

namespace FsExt4.Xattr

open Lib

theorem DecodedEntry.le_entryPadded (e : DecodedEntry) :
    16 + e.nameBytes.length ≤ e.entryPadded ∧ e.entryPadded ≤ 16 + e.nameBytes.length + 3 := by
  unfold DecodedEntry.entryPadded
  omega

theorem DecodedEntry.le_valuePadded (e : DecodedEntry) : e.value.length ≤ e.valuePadded := by
  unfold DecodedEntry.valuePadded
  omega

theorem neededValues_eq (entries : List DecodedEntry) :
    neededValues entries = (entries.map (·.valuePadded)).sum := by
  unfold neededValues
  induction entries with
  | nil => rfl
  | cons e rest ih =>
    rw [List.map_cons, List.sum_cons, ← ih, List.filter_cons]
    cases hv : e.value with
    | nil =>
      have hzero : e.valuePadded = 0 := by
        unfold DecodedEntry.valuePadded
        rw [hv]
        rfl
      rw [hzero]
      simp
    | cons b bs => simp

@[simp] theorem neededEntries_nil : neededEntries [] = 0 := rfl

@[simp] theorem neededValues_nil : neededValues [] = 0 := rfl

@[simp] theorem neededEntries_cons (e : DecodedEntry) (rest : List DecodedEntry) :
    neededEntries (e :: rest) = e.entryPadded + neededEntries rest := by
  unfold neededEntries
  rw [List.map_cons, List.sum_cons]

@[simp] theorem neededValues_cons (e : DecodedEntry) (rest : List DecodedEntry) :
    neededValues (e :: rest) = e.valuePadded + neededValues rest := by
  rw [neededValues_eq, neededValues_eq, List.map_cons, List.sum_cons]

@[simp] theorem neededEntries_append (es fs : List DecodedEntry) :
    neededEntries (es ++ fs) = neededEntries es + neededEntries fs := by
  unfold neededEntries
  rw [List.map_append, List.sum_append]

@[simp] theorem neededValues_append (es fs : List DecodedEntry) :
    neededValues (es ++ fs) = neededValues es + neededValues fs := by
  rw [neededValues_eq, neededValues_eq, neededValues_eq, List.map_append, List.sum_append]

theorem needed_perm {es fs : List DecodedEntry} (h : es.Perm fs) :
    neededEntries es = neededEntries fs ∧ neededValues es = neededValues fs := by
  rw [neededValues_eq, neededValues_eq]
  exact ⟨(h.map _).sum_eq, (h.map _).sum_eq⟩

theorem needed_sublist {es fs : List DecodedEntry} (h : es.Sublist fs) :
    neededEntries es ≤ neededEntries fs ∧ neededValues es ≤ neededValues fs := by
  induction h with
  | slnil => exact ⟨Nat.le_refl _, Nat.le_refl _⟩
  | cons e _ ih =>
    rw [neededEntries_cons, neededValues_cons]
    omega
  | cons_cons e _ ih =>
    rw [neededEntries_cons, neededEntries_cons, neededValues_cons, neededValues_cons]
    omega

theorem sortBy_perm (order : DecodedEntry → DecodedEntry → Ordering) (entries : List DecodedEntry) :
    (sortBy order entries).Perm entries := List.mergeSort_perm _ _

theorem decodeFrom_cases {buf : Bytes} {nameOverruns outOfRange : String} {fuel pos : Nat}
    {es : List DecodedEntry}
    (h : decodeFrom buf nameOverruns outOfRange (fuel + 1) pos = .ok es) :
    (es = [] ∧ (buf.length < pos + 16 ∨ u32leAt buf pos = 0)) ∨
    (pos + 16 + (buf.getD pos 0).toNat ≤ buf.length ∧ u32leAt buf pos ≠ 0 ∧
      ∃ e rest, es = e :: rest ∧ e.nameIndex = buf.getD (pos + 1) 0 ∧
        e.nameBytes = slice buf (pos + 16) (buf.getD pos 0).toNat ∧
        valueAt buf outOfRange pos = .ok e.value ∧ e.valueInum = u32leAt buf (pos + 4) ∧
        decodeFrom buf nameOverruns outOfRange fuel (pos + e.entryPadded) = .ok rest) := by
  rw [decodeFrom] at h
  simp only [pure, Except.pure, throw, throwThe, MonadExceptOf.throw, bind, Except.bind] at h
  split at h
  · rename_i hstop
    exact .inl ⟨(Except.ok.inj h).symm, hstop⟩
  · rename_i hgo
    split at h
    · cases h
    · rename_i hfit
      cases hv : valueAt buf outOfRange pos with
      | error e =>
        rw [hv] at h
        cases h
      | ok value =>
        rw [hv] at h
        dsimp only at h
        have hlen : (slice buf (pos + 16) (buf.getD pos 0).toNat).length = (buf.getD pos 0).toNat :=
          length_slice_of_le _ _ _ (by omega)
        cases hr : decodeFrom buf nameOverruns outOfRange fuel
            (pos + (16 + (buf.getD pos 0).toNat + 3) / 4 * 4) with
        | error e =>
          rw [hr] at h
          cases h
        | ok rest =>
          rw [hr] at h
          right
          refine ⟨by omega, fun hz => hgo (.inr hz), _, rest, (Except.ok.inj h).symm, rfl, rfl,
            rfl, rfl, ?_⟩
          unfold DecodedEntry.entryPadded
          dsimp only
          rw [hlen]
          exact hr

theorem decodeFrom_extent {buf : Bytes} {nameOverruns outOfRange : String} {fuel pos : Nat}
    {es : List DecodedEntry} (h : decodeFrom buf nameOverruns outOfRange fuel pos = .ok es) :
    es = [] ∨ pos + neededEntries es ≤ buf.length + 3 := by
  induction fuel generalizing pos es with
  | zero =>
    left
    exact (Except.ok.inj h).symm
  | succ fuel ih =>
    obtain ⟨rfl, -⟩ | ⟨hfit, -, e, rest, rfl, -, hname, -, -, hrest⟩ := decodeFrom_cases h
    · exact .inl rfl
    · right
      have hlen : e.nameBytes.length = (buf.getD pos 0).toNat := by
        rw [hname]
        exact length_slice_of_le _ _ _ (by omega)
      have hpad := e.le_entryPadded
      rw [neededEntries_cons]
      obtain rfl | hle := ih hrest
      · rw [neededEntries_nil]
        omega
      · omega

theorem length_writeHeader (buf : Bytes) (cursor valueOffs : Nat) (hash : Option UInt32)
    (e : DecodedEntry) (h : cursor + 16 + e.nameBytes.length ≤ buf.length) :
    (writeHeader buf cursor valueOffs hash e).length = buf.length := by
  have h1 : (copyAt buf cursor ([UInt8.ofNat e.nameBytes.length, e.nameIndex] ++
      u16le (UInt16.ofNat valueOffs))).length = buf.length := by
    apply length_copyAt
    simp
    omega
  unfold writeHeader
  cases hash with
  | none =>
    dsimp only
    rw [length_copyAt, length_copyAt, h1]
    · rw [length_u32le, h1]
      omega
    · rw [length_copyAt, h1]
      · omega
      · rw [length_u32le, h1]
        omega
  | some v =>
    dsimp only
    rw [length_copyAt, length_copyAt, length_copyAt, h1]
    · rw [length_u32le, h1]
      omega
    · rw [length_u32le, length_copyAt, h1]
      · omega
      · rw [length_u32le, h1]
        omega
    · rw [length_copyAt, length_copyAt, h1]
      · omega
      · rw [length_u32le, h1]
        omega
      · rw [length_u32le, length_copyAt, h1]
        · omega
        · rw [length_u32le, h1]
          omega

theorem writeEntries_isSome_iff (hash : DecodedEntry → Option UInt32) (es : List DecodedEntry)
    (buf : Bytes) (entryCursor valueCursor : Nat)
      (hentries : entryCursor + neededEntries es ≤ buf.length)
    (hvalues : valueCursor ≤ buf.length) :
    (writeEntries hash es buf entryCursor valueCursor).isSome = true ↔
      neededValues es ≤ valueCursor := by
  induction es generalizing buf entryCursor valueCursor with
  | nil => simp [writeEntries]
  | cons e rest ih =>
    have hpad := e.le_entryPadded
    have hval := e.le_valuePadded
    rw [neededEntries_cons] at hentries
    rw [neededValues_cons, writeEntries]
    split
    · rename_i hunder
      constructor
      · intro h
        cases h
      · intro h
        omega
    · rename_i hroom
      have hcopy : (copyAt buf (valueCursor - e.valuePadded) e.value).length = buf.length :=
        length_copyAt _ _ _ (by omega)
      dsimp only
      rw [if_neg (by omega), hcopy, if_neg (by omega)]
      rw [ih]
      · omega
      · rw [length_writeHeader _ _ _ _ _ (by omega), hcopy]
        omega
      · rw [length_writeHeader _ _ _ _ _ (by omega), hcopy]
        omega

theorem encodeInInodeEntries_isSome_iff {region : Bytes} {es : List DecodedEntry}
    (h : neededEntries es ≤ region.length - 4) :
    (encodeInInodeEntries region es).isSome = true ↔ neededValues es ≤ region.length - 4 := by
  obtain ⟨hp, hv⟩ := needed_perm (sortBy_perm inInodeOrder es)
  unfold encodeInInodeEntries
  dsimp only
  rw [Option.isSome_map, writeEntries_isSome_iff, hv]
  · rw [hp, List.length_replicate]
    omega
  · rw [List.length_replicate]

theorem length_blockHeader (n : Nat) (refcount : UInt32) (h : 32 ≤ n) :
    (copyAt (List.replicate n 0) 0
      (u32le xattrMagic ++ (u32le refcount ++ u32le 1))).length = n := by
  rw [length_copyAt, List.length_replicate]
  simp
  omega

theorem encodeExternalBlock_isSome_iff {block : Bytes} {es : List DecodedEntry} {refcount : UInt32}
    (hlen : 32 ≤ block.length) (h : 32 + neededEntries es ≤ block.length) :
    (encodeExternalBlock block es refcount).isSome = true ↔ neededValues es ≤ block.length := by
  obtain ⟨hp, hv⟩ := needed_perm (sortBy_perm externalOrder es)
  have hhead := length_blockHeader block.length refcount hlen
  unfold encodeExternalBlock
  dsimp only
  rw [Option.isSome_map, writeEntries_isSome_iff, hv]
  · rw [hp, hhead]
    exact h
  · rw [hhead]

/-- Without any one entry the values of the others, padded each on its own, fit in `capacity`. -/
def Roomy (capacity : Nat) (es : List DecodedEntry) : Prop :=
  ∀ pre e post, es = pre ++ e :: post → neededValues (pre ++ post) ≤ capacity

def RegionRoomy (region : Bytes) : Prop :=
  4 ≤ region.length → u32leAt region 0 = xattrMagic →
    ∀ es, decodeInInodeEntries (region.drop 4) = .ok es → Roomy (region.length - 4) es

def BlockRoomy (block : Bytes) : Prop :=
  u32leAt block 0 = xattrMagic →
    ∀ es, decodeExternalBlockEntries block = .ok es → Roomy block.length es

/-- Every edit of the region returns, and what the decoder reads from it fits back without an
entry. -/
structure RegionEditsReturn (region : Bytes) : Prop where
  set : ∀ name value, (planSetInInodeRegion region name value).isSome = true
  remove : ∀ name, (planRemoveInInodeRegion region name).isSome = true
  fits : 4 ≤ region.length → u32leAt region 0 = xattrMagic →
    ∀ es, decodeInInodeEntries (region.drop 4) = .ok es → ∀ pre e post, es = pre ++ e :: post →
      (encodeInInodeEntries region (pre ++ post)).isSome = true

structure BlockEditsReturn (block : Bytes) : Prop where
  set : ∀ name value refcount, (planSetInExternalBlock block name value refcount).isSome = true
  remove : ∀ name refcount, (planRemoveFromExternalBlock block name refcount).isSome = true
  fits : u32leAt block 0 = xattrMagic →
    ∀ es, decodeExternalBlockEntries block = .ok es → ∀ pre e post, es = pre ++ e :: post →
      ∀ refcount, (encodeExternalBlock block (pre ++ post) refcount).isSome = true

theorem survivors_sublist {nameIndex : UInt8} {suffix : Bytes} {es : List DecodedEntry}
    (h : (survivors nameIndex suffix es).length ≠ es.length) :
    ∃ pre e post, es = pre ++ e :: post ∧ (survivors nameIndex suffix es).Sublist
      (pre ++ post) := by
  have hex : ∃ e ∈ es, ¬ (!e.is nameIndex suffix) = true := by
    by_contra hall
    apply h
    apply congrArg List.length
    apply List.filter_eq_self.mpr
    intro e he
    by_contra hno
    exact hall ⟨e, he, hno⟩
  obtain ⟨e, he, hno⟩ := hex
  obtain ⟨pre, post, rfl⟩ := List.append_of_mem he
  refine ⟨pre, e, post, rfl, ?_⟩
  unfold survivors
  rw [List.filter_append, List.filter_cons, if_neg hno, ← List.filter_append]
  exact List.filter_sublist

theorem decodeInInodeEntries_extent {entriesBuf : Bytes} {es : List DecodedEntry}
    (h : decodeInInodeEntries entriesBuf = .ok es) :
    es = [] ∨ neededEntries es ≤ entriesBuf.length + 3 := by
  obtain hnil | hle := decodeFrom_extent h
  · exact .inl hnil
  · exact .inr (by omega)

theorem decodeExternalBlockEntries_extent {block : Bytes} {es : List DecodedEntry}
    (h : decodeExternalBlockEntries block = .ok es) :
    32 ≤ block.length ∧ (es = [] ∨ 32 + neededEntries es ≤ block.length + 3) := by
  unfold decodeExternalBlockEntries at h
  split at h
  · cases h
  · exact ⟨by omega, decodeFrom_extent h⟩

theorem neededEntries_without {cursor len : Nat} {pre post : List DecodedEntry} {e : DecodedEntry}
    (h : pre ++ e :: post = [] ∨ cursor + neededEntries (pre ++ e :: post) ≤ len + 3) :
    cursor + neededEntries (pre ++ post) + 13 ≤ len := by
  have hpad := e.le_entryPadded
  obtain h | h := h
  · exact absurd h (by simp)
  · rw [neededEntries_append, neededEntries_cons] at h
    rw [neededEntries_append]
    omega

theorem encodeInInodeEntries_without {region : Bytes} {es kept pre post : List DecodedEntry}
    {e : DecodedEntry} (hdec : decodeInInodeEntries (region.drop 4) = .ok es)
    (hes : es = pre ++ e :: post) (hkept : kept.Sublist (pre ++ post)) :
    (encodeInInodeEntries region kept).isSome = true ↔ neededValues kept ≤ region.length - 4 := by
  subst hes
  have hext := decodeInInodeEntries_extent hdec
  rw [List.length_drop, ← Nat.zero_add (neededEntries _)] at hext
  have hroom := neededEntries_without hext
  have hle := (needed_sublist hkept).1
  exact encodeInInodeEntries_isSome_iff (by omega)

theorem encodeExternalBlock_without {block : Bytes} {es kept pre post : List DecodedEntry}
    {e : DecodedEntry} {refcount : UInt32} (hdec : decodeExternalBlockEntries block = .ok es)
    (hes : es = pre ++ e :: post) (hkept : kept.Sublist (pre ++ post)) :
    (encodeExternalBlock block kept refcount).isSome = true ↔ neededValues kept ≤ block.length := by
  subst hes
  obtain ⟨hlen, hext⟩ := decodeExternalBlockEntries_extent hdec
  have hroom := neededEntries_without hext
  have hle := (needed_sublist hkept).1
  exact encodeExternalBlock_isSome_iff hlen (by omega)

theorem planSetInInodeRegion_isSome (region name value : Bytes) :
    (planSetInInodeRegion region name value).isSome = true := by
  unfold planSetInInodeRegion
  split
  · rfl
  split
  · rfl
  split
  · rfl
  dsimp only
  split
  · rfl
  · rename_i hroom
    rw [Option.isSome_map]
    exact (encodeInInodeEntries_isSome_iff (by omega)).mpr (by omega)

theorem planSetInExternalBlock_isSome (block name value : Bytes) (refcount : UInt32) :
    (planSetInExternalBlock block name value refcount).isSome = true := by
  unfold planSetInExternalBlock
  split
  · rfl
  split
  · rfl
  rename_i hlen
  split
  · rfl
  dsimp only
  split
  · rfl
  · rename_i hroom
    rw [Option.isSome_map]
    exact (encodeExternalBlock_isSome_iff (by omega) (by omega)).mpr (by omega)

theorem editable_ok {decoded : Result (List DecodedEntry)} {es : List DecodedEntry}
    (h : editable decoded = .ok es) : decoded = .ok es ∧ ∀ e ∈ es, e.valueInum = 0 := by
  unfold editable at h
  obtain ⟨entries, hdec, hrest⟩ := Result.bind_eq_ok h
  obtain ⟨u, hrefuse, hsame⟩ := Result.bind_eq_ok hrest
  obtain rfl := Except.ok.inj hsame
  refine ⟨hdec, ?_⟩
  unfold refuseIfAnyEaInodeBacked at hrefuse
  split at hrefuse
  · cases hrefuse
  · rename_i hnone
    intro e he
    by_contra hne
    exact hnone (List.any_eq_true.mpr ⟨e, he, by simpa using hne⟩)

theorem planRemoveInInodeRegion_isSome {region : Bytes} (h : RegionRoomy region) (name : Bytes) :
    (planRemoveInInodeRegion region name).isSome = true := by
  unfold planRemoveInInodeRegion
  split
  · rfl
  split
  · rfl
  rename_i hmagic
  split
  · rfl
  rename_i es hes
  obtain ⟨hdec, -⟩ := editable_ok hes
  dsimp only
  split
  · rfl
  · rename_i hlost
    obtain ⟨pre, e, post, hsplit, hsub⟩ := survivors_sublist hlost
    rw [Option.isSome_map, encodeInInodeEntries_without hdec hsplit hsub]
    have hroom := h (by omega) (by_contra fun hne => hmagic (.inr hne)) es hdec pre e post hsplit
    exact Nat.le_trans (needed_sublist hsub).2 hroom

theorem planRemoveFromExternalBlock_isSome {block : Bytes} (h : BlockRoomy block) (name : Bytes)
    (refcount : UInt32) : (planRemoveFromExternalBlock block name refcount).isSome = true := by
  unfold planRemoveFromExternalBlock
  split
  · rfl
  split
  · rfl
  rename_i hmagic
  split
  · rfl
  rename_i es hes
  obtain ⟨hdec, -⟩ := editable_ok hes
  dsimp only
  split
  · rfl
  split
  · rfl
  · rename_i hlost _
    obtain ⟨pre, e, post, hsplit, hsub⟩ := survivors_sublist hlost
    rw [Option.isSome_map, encodeExternalBlock_without hdec hsplit hsub]
    have hroom := h (by_contra fun hne => hmagic (.inr hne)) es hdec pre e post hsplit
    exact Nat.le_trans (needed_sublist hsub).2 hroom

/-- Attribute edits of any bytes return exactly when, without any one entry, the values the decoder
read fit in the area each on its own. -/
theorem edits_return_iff (region block : Bytes) :
    (RegionEditsReturn region ↔ RegionRoomy region) ∧
    (BlockEditsReturn block ↔ BlockRoomy block) := by
  constructor
  · constructor
    · intro h hlen hmagic es hdec pre e post hsplit
      exact (encodeInInodeEntries_without hdec hsplit (List.Sublist.refl _)).mp
        (h.fits hlen hmagic es hdec pre e post hsplit)
    · intro h
      refine ⟨planSetInInodeRegion_isSome region, planRemoveInInodeRegion_isSome h, ?_⟩
      intro hlen hmagic es hdec pre e post hsplit
      exact (encodeInInodeEntries_without hdec hsplit (List.Sublist.refl _)).mpr
        (h hlen hmagic es hdec pre e post hsplit)
  · constructor
    · intro h hmagic es hdec pre e post hsplit
      exact (encodeExternalBlock_without hdec hsplit (List.Sublist.refl _)).mp
        (h.fits hmagic es hdec pre e post hsplit 1)
    · intro h
      refine ⟨planSetInExternalBlock_isSome block, planRemoveFromExternalBlock_isSome h, ?_⟩
      intro hmagic es hdec pre e post hsplit refcount
      exact (encodeExternalBlock_without hdec hsplit (List.Sublist.refl _)).mpr
        (h hmagic es hdec pre e post hsplit)

/-- An entry named by one letter of the user namespace, its value the whole area of 64 bytes. -/
def wholeAreaEntry (letter : UInt8) : Bytes :=
  [1, 1, 0, 0] ++ (u32le 0 ++ (u32le 64 ++ (u32le 0 ++ [letter, 0, 0, 0])))

/-- Three entries that share the bytes of the whole area as their value. -/
def sharedRegion : Bytes :=
  u32le xattrMagic ++ (wholeAreaEntry 0x61 ++
    (wholeAreaEntry 0x62 ++ (wholeAreaEntry 0x63 ++ u32le 0)))

def userA : Bytes := [0x75, 0x73, 0x65, 0x72, 0x2E, 0x61]

def sharedEntry (letter : UInt8) : DecodedEntry := ⟨1, [letter], sharedRegion.drop 4, 0⟩

/-- Removing one of three entries that share their value underflows. -/
theorem shared_value_underflows : planRemoveInInodeRegion sharedRegion userA = none := by
  have hsplit : splitQualifiedName userA = some (1, [0x61]) := by decide
  have hdec : editable (decodeInInodeEntries (sharedRegion.drop 4)) =
      .ok [sharedEntry 0x61, sharedEntry 0x62, sharedEntry 0x63] := by
    decide
  have hmagic : ¬ (sharedRegion.length < 4 ∨ u32leAt sharedRegion 0 ≠ xattrMagic) := by decide
  have hkept : survivors 1 [0x61] [sharedEntry 0x61, sharedEntry 0x62, sharedEntry 0x63] =
      [sharedEntry 0x62, sharedEntry 0x63] := by
    decide
  have hroom : neededEntries [sharedEntry 0x62, sharedEntry 0x63] ≤ sharedRegion.length - 4 := by
    decide
  have hover : ¬ neededValues [sharedEntry 0x62, sharedEntry 0x63] ≤ sharedRegion.length - 4 := by
    decide
  have hnone : encodeInInodeEntries sharedRegion [sharedEntry 0x62, sharedEntry 0x63] = none := by
    rw [← Option.not_isSome_iff_eq_none, encodeInInodeEntries_isSome_iff hroom]
    exact hover
  unfold planRemoveInInodeRegion
  rw [hsplit]
  dsimp only
  rw [if_neg hmagic, hdec]
  dsimp only
  rw [hkept, if_neg (by decide), hnone]
  rfl

end FsExt4.Xattr
