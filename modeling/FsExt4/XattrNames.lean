import FsExt4.XattrPacked
import Mathlib.Data.List.Nodup

namespace FsExt4.Xattr

open Lib

def posixAclAccess : Bytes :=
  [0x70, 0x6F, 0x73, 0x69, 0x78, 0x5F, 0x61, 0x63, 0x6C, 0x5F, 0x61, 0x63, 0x63, 0x65, 0x73, 0x73]

def posixAclDefault : Bytes :=
  [0x70, 0x6F, 0x73, 0x69, 0x78, 0x5F, 0x61, 0x63, 0x6C, 0x5F, 0x64, 0x65, 0x66, 0x61,
    0x75, 0x6C, 0x74]

/-- No earlier prefix of the table opens the name: it is not a `system.richacl`, which `system.`
opens, nor a `system.` name that one of the two ACL names opens. -/
def Nameable (nameIndex : UInt8) (suffix : Bytes) : Prop :=
  nameIndex ≠ 8 ∧ ¬ (nameIndex = 7 ∧ (posixAclAccess <+: suffix ∨ posixAclDefault <+: suffix))

theorem stripFront_eq_some {front name rest : Bytes} :
    stripFront front name = some rest ↔ name = front ++ rest := by
  unfold stripFront
  constructor
  · intro h
    split at h
    · rename_i hfront
      obtain ⟨rest', rfl⟩ := List.isPrefixOf_iff_prefix.mp hfront
      rw [List.drop_left] at h
      rw [Option.some.inj h]
    · cases h
  · rintro rfl
    rw [if_pos (List.isPrefixOf_iff_prefix.mpr (List.prefix_append _ _)), List.drop_left]

theorem mem_namePrefixes {nameIndex : UInt8} {front : Bytes} :
    prefixForIndex nameIndex = some front ↔ (nameIndex.toNat, front) ∈ namePrefixes := by
  unfold prefixForIndex
  constructor
  · intro h
    obtain ⟨p, hp, rfl⟩ := Option.map_eq_some_iff.mp h
    have hmem := List.mem_of_find?_eq_some hp
    have hidx := @List.find?_some _ (fun q : Nat × Bytes => q.1 == nameIndex.toNat) _ _ hp
    rw [beq_iff_eq] at hidx
    rw [← hidx]
    exact hmem
  · intro h
    have hall : ∀ p ∈ namePrefixes, (namePrefixes.find? (fun q => q.1 == p.1)).map Prod.snd =
        some p.2 := by
      decide
    exact hall _ h

theorem splitQualifiedName_eq {name suffix : Bytes} {nameIndex : UInt8}
    (h : splitQualifiedName name = some (nameIndex, suffix)) :
    ∃ front, prefixForIndex nameIndex = some front ∧ name = front ++ suffix := by
  unfold splitQualifiedName at h
  obtain ⟨p, hp, hsplit⟩ := List.exists_of_findSome?_eq_some h
  obtain ⟨rest, hrest, heq⟩ := Option.map_eq_some_iff.mp hsplit
  obtain ⟨rfl, rfl⟩ := Prod.mk.inj heq
  refine ⟨p.2, ?_, stripFront_eq_some.mp hrest⟩
  have hall : ∀ p ∈ namePrefixes, prefixForIndex (UInt8.ofNat p.1) = some p.2 := by
    decide
  exact hall p hp

theorem splitQualifiedName_append_iff {nameIndex : UInt8} {front suffix : Bytes}
    (h : prefixForIndex nameIndex = some front) :
    splitQualifiedName (front ++ suffix) = some (nameIndex, suffix) ↔
    Nameable nameIndex suffix := by
  have hmem := mem_namePrefixes.mp h
  have hidx : nameIndex = UInt8.ofNat nameIndex.toNat := by simp
  generalize nameIndex.toNat = n at hmem hidx
  subst hidx
  unfold Nameable posixAclAccess posixAclDefault
  simp only [namePrefixes, List.mem_cons, Prod.mk.injEq, List.not_mem_nil, or_false] at hmem
  rcases hmem with ⟨rfl, rfl⟩ | ⟨rfl, rfl⟩ | ⟨rfl, rfl⟩ | ⟨rfl, rfl⟩ | ⟨rfl, rfl⟩ | ⟨rfl, rfl⟩ |
    ⟨rfl, rfl⟩ | ⟨rfl, rfl⟩
  case inr.inr.inr.inr.inr.inr.inl =>
    -- the two ACL names come first in the table
    by_cases haccess : posixAclAccess <+: suffix
    · unfold posixAclAccess at haccess
      simp [splitQualifiedName, namePrefixes, stripFront, haccess]
    · by_cases hdefault : posixAclDefault <+: suffix
      all_goals
        unfold posixAclAccess at haccess
        unfold posixAclDefault at hdefault
        simp [splitQualifiedName, namePrefixes, stripFront, haccess, hdefault]
  all_goals
    simp [splitQualifiedName, namePrefixes, stripFront]

def DecodedEntry.qualifiedName (e : DecodedEntry) : Bytes :=
  (prefixForIndex e.nameIndex).getD [] ++ e.nameBytes

/-- The reader's entry and the decoder's are of one attribute. -/
structure Reports (x : XattrEntry) (e : DecodedEntry) : Prop where
  name : x.name = e.qualifiedName
  value : x.value = e.value
  valueInum : x.valueInum = e.valueInum
  utf8 : isUtf8 e.nameBytes = true

theorem entriesFrom_decodeFrom {buf : Bytes} {nameOverruns outOfRange : String} {fuel pos : Nat}
    {xs : List XattrEntry} (h : entriesFrom buf nameOverruns outOfRange fuel pos = .ok xs) :
    ∃ es, decodeFrom buf nameOverruns outOfRange fuel pos = .ok es ∧
    List.Forall₂ Reports xs es := by
  induction fuel generalizing pos xs with
  | zero =>
    obtain rfl := Except.ok.inj h
    exact ⟨[], rfl, .nil⟩
  | succ fuel ih =>
    rw [entriesFrom] at h
    rw [decodeFrom]
    simp only [pure, Except.pure, throw, throwThe, MonadExceptOf.throw, bind, Except.bind] at h ⊢
    split at h
    · rename_i hstop
      obtain rfl := Except.ok.inj h
      rw [if_pos hstop]
      exact ⟨[], rfl, .nil⟩
    · rename_i hgo
      rw [if_neg hgo]
      split at h
      · cases h
      rename_i hfit
      rw [if_neg hfit]
      split at h
      · cases h
      rename_i hutf8
      cases hv : valueAt buf outOfRange pos with
      | error e =>
        rw [hv] at h
        cases h
      | ok value =>
        rw [hv] at h
        dsimp only at h ⊢
        cases hr : entriesFrom buf nameOverruns outOfRange fuel
            (pos + (16 + (buf.getD pos 0).toNat + 3) / 4 * 4) with
        | error e =>
          rw [hr] at h
          cases h
        | ok rest =>
          rw [hr] at h
          obtain rfl := Except.ok.inj h
          obtain ⟨es, hes, hall⟩ := ih hr
          rw [hes]
          refine ⟨_, rfl, .cons ⟨rfl, rfl, rfl, ?_⟩ hall⟩
          simpa using hutf8

theorem names_of_reports {xs : List XattrEntry} {es : List DecodedEntry}
    (h : List.Forall₂ Reports xs es) : xs.map (·.name) = es.map (·.qualifiedName) := by
  induction h with
  | nil => rfl
  | cons hx _ ih => rw [List.map_cons, List.map_cons, hx.name, ih]

theorem decodeFrom_name_length {buf : Bytes} {nameOverruns outOfRange : String} {fuel pos : Nat}
    {es : List DecodedEntry} (h : decodeFrom buf nameOverruns outOfRange fuel pos = .ok es)
    {e : DecodedEntry} (he : e ∈ es) : e.nameBytes.length ≤ 255 ∧ pos + 16 ≤ buf.length := by
  induction fuel generalizing pos es with
  | zero =>
    obtain rfl := Except.ok.inj h
    cases he
  | succ fuel ih =>
    obtain ⟨rfl, -⟩ | ⟨hfit, -, e₀, rest, rfl, -, hname, -, -, hrest⟩ := decodeFrom_cases h
    · cases he
    · refine ⟨?_, by omega⟩
      obtain rfl | he := List.mem_cons.mp he
      · have hlen : e.nameBytes.length = (buf.getD pos 0).toNat := by
          rw [hname]
          exact length_slice_of_le _ _ _ (by omega)
        have := (buf.getD pos 0).toNat_lt
        omega
      · exact (ih hrest he).1

section Distinct

variable {es : List DecodedEntry} {e : DecodedEntry}

theorem is_iff_key {nameIndex : UInt8} {suffix : Bytes} :
    e.is nameIndex suffix = true ↔ e.key = (nameIndex, suffix) := by
  unfold DecodedEntry.is DecodedEntry.key
  simp

theorem is_iff_eq (hkeys : (es.map (·.key)).Nodup) (he : e ∈ es) {x : DecodedEntry} (hx : x ∈ es) :
    x.is e.nameIndex e.nameBytes = true ↔ x = e := by
  rw [is_iff_key]
  exact ⟨fun h => List.inj_on_of_nodup_map hkeys hx he h, fun h => by rw [h]; rfl⟩

theorem survivors_eq_filter (hkeys : (es.map (·.key)).Nodup) (he : e ∈ es) :
    survivors e.nameIndex e.nameBytes es = es.filter (fun x => x ≠ e) := by
  unfold survivors
  apply List.filter_congr
  intro x hx
  by_cases hxe : x = e
  · rw [(is_iff_eq hkeys he hx).mpr hxe]
    simp [hxe]
  · have hno : x.is e.nameIndex e.nameBytes = false := by
      rw [Bool.eq_false_iff]
      exact fun h => hxe ((is_iff_eq hkeys he hx).mp h)
    rw [hno]
    simp [hxe]

theorem assign_eq_map (hkeys : (es.map (·.key)).Nodup) (he : e ∈ es) (value : Bytes) :
    assign e.nameIndex e.nameBytes value es =
      (es.map (fun x => if x = e then { x with value := value } else x), .replaced) := by
  induction es with
  | nil => cases he
  | cons a rest ih =>
    have hself : e.is e.nameIndex e.nameBytes = true := is_iff_key.mpr rfl
    rw [List.map_cons, List.nodup_cons] at hkeys
    rw [assign, List.map_cons]
    by_cases hae : a = e
    · subst hae
      rw [if_pos hself, if_pos rfl]
      have hrest : rest.map (fun x => if x = a then { x with value := value } else x) = rest := by
        conv_rhs => rw [← List.map_id rest]
        apply List.map_congr_left
        intro x hx
        have hne : x ≠ a := by
          rintro rfl
          exact hkeys.1 (List.mem_map.mpr ⟨x, hx, rfl⟩)
        rw [if_neg hne]
        rfl
      rw [hrest]
    · have he' : e ∈ rest := (List.mem_cons.mp he).resolve_left (fun h => hae h.symm)
      have hno : ¬ a.is e.nameIndex e.nameBytes = true := by
        rw [is_iff_key]
        intro hk
        exact hkeys.1 (List.mem_map.mpr ⟨e, he', hk.symm⟩)
      rw [if_neg hno, if_neg hae, ih hkeys.2 he']

end Distinct

def listing (xs : List XattrEntry) : List (Bytes × Bytes) := xs.map (fun x => (x.name, x.value))

def DecodedEntry.pair (e : DecodedEntry) : Bytes × Bytes := (e.qualifiedName, e.value)

theorem listing_of_reports {xs : List XattrEntry} {es : List DecodedEntry}
    (h : List.Forall₂ Reports xs es) : listing xs = es.map (·.pair) := by
  unfold listing
  induction h with
  | nil => rfl
  | cons hx _ ih => rw [List.map_cons, List.map_cons, ih, hx.name, hx.value]; rfl

theorem entriesFrom_of_decodeFrom {buf : Bytes} {nameOverruns outOfRange : String} {fuel pos : Nat}
    {es : List DecodedEntry} (h : decodeFrom buf nameOverruns outOfRange fuel pos = .ok es)
    (hutf8 : ∀ e ∈ es, isUtf8 e.nameBytes = true) :
    ∃ xs, entriesFrom buf nameOverruns outOfRange fuel pos = .ok xs ∧
    List.Forall₂ Reports xs es := by
  induction fuel generalizing pos es with
  | zero =>
    obtain rfl := Except.ok.inj h
    exact ⟨[], rfl, .nil⟩
  | succ fuel ih =>
    rw [entriesFrom]
    simp only [pure, Except.pure, throw, throwThe, MonadExceptOf.throw, bind, Except.bind]
    rcases decodeFrom_cases h with ⟨rfl, hstop⟩ | ⟨hfit, hword, e, rest, rfl, hidx, hname, hvalue,
      hinum, hrest⟩
    · rw [if_pos hstop]
      exact ⟨[], rfl, .nil⟩
    · have hlen : e.nameBytes.length = (buf.getD pos 0).toNat := by
        rw [hname]
        exact length_slice_of_le _ _ _ (by omega)
      have htext := hutf8 e List.mem_cons_self
      obtain ⟨xs, hxs, hall⟩ := ih hrest (fun x hx => hutf8 x (List.mem_cons_of_mem _ hx))
      unfold DecodedEntry.entryPadded at hxs
      rw [hlen] at hxs
      have hgo : ¬ (buf.length < pos + 16 ∨ u32leAt buf pos = 0) :=
        fun hor => hor.elim (fun hlt => by omega) hword
      rw [if_neg hgo, if_neg (by omega), ← hname, htext, hvalue, hxs]
      refine ⟨_, rfl, .cons ⟨?_, rfl, hinum.symm, htext⟩ hall⟩
      unfold DecodedEntry.qualifiedName
      rw [hidx]

section Named

variable {es : List DecodedEntry} {e : DecodedEntry} {value : Bytes}

def Splits (es : List DecodedEntry) : Prop :=
  ∀ e ∈ es, splitQualifiedName e.qualifiedName = some e.key

theorem splits_iff (hknown : ∀ e ∈ es, (prefixForIndex e.nameIndex).isSome = true) :
    Splits es ↔ ∀ e ∈ es, Nameable e.nameIndex e.nameBytes := by
  apply forall₂_congr
  intro e he
  obtain ⟨front, hfront⟩ := Option.isSome_iff_exists.mp (hknown e he)
  unfold DecodedEntry.qualifiedName DecodedEntry.key
  rw [hfront, Option.getD_some]
  exact splitQualifiedName_append_iff hfront

theorem qualifiedName_nodup (hsplits : Splits es) (hkeys : (es.map (·.key)).Nodup) :
    (es.map (·.qualifiedName)).Nodup := by
  apply List.Nodup.of_map splitQualifiedName
  have hmap : (es.map (·.qualifiedName)).map splitQualifiedName = (es.map (·.key)).map some := by
    rw [List.map_map, List.map_map]
    exact List.map_congr_left hsplits
  rw [hmap]
  exact hkeys.map (Option.some_injective _)

def replacing (e : DecodedEntry) (value : Bytes) (es : List DecodedEntry) : List DecodedEntry :=
  es.map (fun x => if x = e then { x with value := value } else x)

def removing (e : DecodedEntry) (es : List DecodedEntry) : List DecodedEntry :=
  es.filter (fun x => x ≠ e)

theorem eq_of_qualifiedName (hnames : (es.map (·.qualifiedName)).Nodup) (he : e ∈ es)
    {x : DecodedEntry} (hx : x ∈ es) : x.qualifiedName = e.qualifiedName ↔ x = e :=
  ⟨fun h => List.inj_on_of_nodup_map hnames hx he h, fun h => by rw [h]⟩

theorem pairs_removing (hnames : (es.map (·.qualifiedName)).Nodup) (he : e ∈ es) :
    (removing e es).map (·.pair) = (es.map (·.pair)).filter (fun p => p.1 ≠ e.qualifiedName) := by
  unfold removing
  rw [List.filter_map]
  congr 1
  apply List.filter_congr
  intro x hx
  simp only [Function.comp_apply, DecodedEntry.pair, ne_eq, eq_of_qualifiedName hnames he hx]

theorem pairs_replacing (hnames : (es.map (·.qualifiedName)).Nodup) (he : e ∈ es) :
    (replacing e value es).map (·.pair) =
      (es.map (·.pair)).map (fun p => if p.1 = e.qualifiedName then (p.1, value) else p) := by
  unfold replacing
  rw [List.map_map, List.map_map]
  apply List.map_congr_left
  intro x hx
  have hname : x.pair.1 = e.qualifiedName ↔ x = e := eq_of_qualifiedName hnames he hx
  simp only [Function.comp_apply]
  by_cases hxe : x = e
  · rw [if_pos hxe, if_pos (hname.mpr hxe)]
    rfl
  · rw [if_neg hxe, if_neg (fun h => hxe (hname.mp h))]

/-- An edit of an area whose entries are these, refused when an entry's value is in another
inode. -/
def guarded {α : Type} (es : List DecodedEntry) (bytes : Bytes) (edit : Option (Result α × Bytes)) :
    Option (Result α × Bytes) :=
  match refuseIfAnyEaInodeBacked es with
  | .error err => some (.error err, bytes)
  | .ok _ => edit

theorem editable_cases {decoded : Result (List DecodedEntry)} (hdec : decoded = .ok es) :
    (∃ err, editable decoded = .error err ∧ refuseIfAnyEaInodeBacked es = .error err) ∨
      (editable decoded = .ok es ∧ refuseIfAnyEaInodeBacked es = .ok ()) := by
  unfold editable
  rw [hdec]
  cases hr : refuseIfAnyEaInodeBacked es with
  | error err =>
    left
    refine ⟨err, ?_, rfl⟩
    simp only [bind, Except.bind, hr]
  | ok u =>
    right
    refine ⟨?_, rfl⟩
    simp only [bind, Except.bind, hr, pure, Except.pure]

theorem guarded_ok {α : Type} {bytes : Bytes} {edit : Option (Result α × Bytes)} {outcome : α}
    {after : Bytes} (h : guarded es bytes edit = some (.ok outcome, after)) :
    edit = some (.ok outcome, after) ∧ ∀ e ∈ es, e.valueInum = 0 := by
  unfold guarded at h
  cases hr : refuseIfAnyEaInodeBacked es with
  | error err =>
    rw [hr] at h
    cases h
  | ok u =>
    rw [hr] at h
    have hed : editable (.ok es) = .ok es := by
      unfold editable
      simp only [bind, Except.bind, hr, pure, Except.pure]
    exact ⟨h, (editable_ok hed).2⟩

theorem length_removing (he : e ∈ es) : (removing e es).length ≠ es.length := by
  intro h
  have hself := List.length_filter_eq_length_iff.mp h e he
  simp at hself

end Named

def listRegion (region : Bytes) : Result (List XattrEntry) :=
  if u32leAt region 0 = xattrMagic then parseEntries (region.drop 4) else .ok []

def listBlock (block : Bytes) : Result (List XattrEntry) :=
  if u32leAt block 0 ≠ xattrMagic then .error (.corrupt "xattr block magic mismatch")
  else parseEntriesBlock block

section Reading

variable {es : List DecodedEntry} {bytes : Bytes} {len : Nat} {refcount : UInt32}

theorem RegionStores.list (h : RegionStores len bytes es) (hstorable : ∀ e ∈ es, Storable e)
    (hutf8 : ∀ e ∈ es, isUtf8 e.nameBytes = true) (hlen : len ≤ 65536) :
    ∃ ys, listRegion bytes = .ok ys ∧ List.Forall₂ Reports ys (sortBy inInodeOrder es) := by
  obtain ⟨ys, hys, hall⟩ := entriesFrom_of_decodeFrom (h.decode hstorable hlen)
    (fun e he => hutf8 e ((sortBy_perm inInodeOrder es).mem_iff.mp he))
  refine ⟨ys, ?_, hall⟩
  unfold listRegion
  rw [if_pos h.magic]
  exact hys

theorem BlockStores.list (h : BlockStores len bytes refcount es) (hstorable : ∀ e ∈ es, Storable e)
    (hutf8 : ∀ e ∈ es, isUtf8 e.nameBytes = true) (hlen : len ≤ 65536) :
    ∃ ys, listBlock bytes = .ok ys ∧ List.Forall₂ Reports ys (sortBy externalOrder es) := by
  have hdec := h.decode hstorable hlen
  unfold decodeExternalBlockEntries at hdec
  have hlength := h.length
  have hroom := h.room
  rw [if_neg (by omega)] at hdec
  obtain ⟨ys, hys, hall⟩ := entriesFrom_of_decodeFrom hdec
    (fun e he => hutf8 e ((sortBy_perm externalOrder es).mem_iff.mp he))
  refine ⟨ys, ?_, hall⟩
  unfold listBlock parseEntriesBlock
  rw [if_neg (fun hne => hne h.magic), if_neg (by omega)]
  exact hys

theorem utf8_of_reports {xs : List XattrEntry} (h : List.Forall₂ Reports xs es) :
    ∀ e ∈ es, isUtf8 e.nameBytes = true := by
  induction h with
  | nil =>
    intro e he
    cases he
  | cons hx _ ih =>
    intro e he
    obtain rfl | he := List.mem_cons.mp he
    · exact hx.utf8
    · exact ih e he

theorem storable_of_known (hname : ∀ e ∈ es, e.nameBytes.length ≤ 255)
    (hknown : ∀ e ∈ es, (prefixForIndex e.nameIndex).isSome = true)
    (hinum : ∀ e ∈ es, e.valueInum = 0) : ∀ e ∈ es, Storable e := by
  intro e he
  refine ⟨hname e he, ?_, hinum e he⟩
  rintro ⟨hzero, -⟩
  have hidx := hknown e he
  rw [hzero] at hidx
  exact absurd hidx (by decide)

theorem forall_removing {p : DecodedEntry → Prop} {e : DecodedEntry} (h : ∀ x ∈ es, p x) :
    ∀ x ∈ removing e es, p x := fun x hx => h x (List.mem_of_mem_filter hx)

theorem forall_replacing {p : DecodedEntry → Prop} {e : DecodedEntry} {value : Bytes}
    (hp : ∀ x, p x → p { x with value := value }) (h : ∀ x ∈ es, p x) :
    ∀ x ∈ replacing e value es, p x := by
  intro x hx
  obtain ⟨y, hy, rfl⟩ := List.mem_map.mp hx
  split
  · exact hp y (h y hy)
  · exact h y hy

end Reading

def regionRemoving (region : Bytes) (es : List DecodedEntry) (e : DecodedEntry) :
    Option (Result RemoveOutcome × Bytes) :=
  guarded es region ((encodeInInodeEntries region (removing e es)).map
    (fun bytes => (.ok .removed, bytes)))

/-- The last entry's removal is left to the caller, who frees the block. -/
def blockRemoving (block : Bytes) (refcount : UInt32) (es : List DecodedEntry) (e : DecodedEntry) :
    Option (Result BlockRemoveOutcome × Bytes) :=
  guarded es block (
    if (removing e es).isEmpty then some (.ok .removedNowEmpty, block)
    else (encodeExternalBlock block (removing e es) refcount).map
      (fun bytes => (.ok .removed, bytes)))

/-- Replacing a value: an empty suffix is refused outside the ACL namespaces, and so is what does
not fit in `capacity`. -/
def areaReplacing (area : Bytes) (capacity : Nat) (encode : List DecodedEntry → Option Bytes)
    (es : List DecodedEntry) (e : DecodedEntry) (value : Bytes) :
    Option (Result SetOutcome × Bytes) :=
  if e.nameBytes.isEmpty ∧ ¬ (e.nameIndex = 2 ∨ e.nameIndex = 3) then
    some (.error (.invalidArgument "xattr name suffix is empty"), area)
  else
    guarded es area (
      if capacity < neededEntries (replacing e value es) + 4 + neededValues
        (replacing e value es) then
        some (.error .noSpaceLeftOnDevice, area)
      else (encode (replacing e value es)).map (fun bytes => (.ok .replaced, bytes)))

def regionReplacing (region : Bytes) : List DecodedEntry → DecodedEntry → Bytes →
    Option (Result SetOutcome × Bytes) :=
  areaReplacing region (region.length - 4) (encodeInInodeEntries region)

def blockReplacing (block : Bytes) (refcount : UInt32) : List DecodedEntry → DecodedEntry → Bytes →
    Option (Result SetOutcome × Bytes) :=
  areaReplacing block (block.length - 0x20) (fun es => encodeExternalBlock block es refcount)

/-- A region the reader lists: distinct entries of known namespaces. -/
structure ListedRegion (region : Bytes) (es : List DecodedEntry) (xs : List XattrEntry) : Prop where
  four_le : 4 ≤ region.length
  length_le : region.length ≤ 65536
  magic : u32leAt region 0 = xattrMagic
  decoded : decodeInInodeEntries (region.drop 4) = .ok es
  listed : listRegion region = .ok xs
  keys : (es.map (·.key)).Nodup
  known : ∀ e ∈ es, (prefixForIndex e.nameIndex).isSome = true

structure ListedBlock (block : Bytes) (es : List DecodedEntry) (xs : List XattrEntry) : Prop where
  le_length : 0x40 ≤ block.length
  length_le : block.length ≤ 65536
  magic : u32leAt block 0 = xattrMagic
  decoded : decodeExternalBlockEntries block = .ok es
  listed : listBlock block = .ok xs
  keys : (es.map (·.key)).Nodup
  known : ∀ e ∈ es, (prefixForIndex e.nameIndex).isSome = true

/-- The listing without the entry's name, and with its value replaced. -/
def withoutName (e : DecodedEntry) (pairs : List (Bytes × Bytes)) : List (Bytes × Bytes) :=
  pairs.filter (fun p => p.1 ≠ e.qualifiedName)

def withValue (e : DecodedEntry) (value : Bytes) (pairs : List (Bytes × Bytes)) : List
    (Bytes × Bytes) :=
  pairs.map (fun p => if p.1 = e.qualifiedName then (p.1, value) else p)

/-- The names the reader reports are distinct, split into what they were put together from, and name
their entries to `remove` and `set`. -/
structure EditsByName {ω : Type} (es : List DecodedEntry) (xs : List XattrEntry)
    (list : Bytes → Result (List XattrEntry)) (capacity : Nat) (gone : ω)
    (remove : Bytes → Option (Result ω × Bytes)) (removal : DecodedEntry →
    Option (Result ω × Bytes)) (set : Bytes → Bytes → Option (Result SetOutcome × Bytes))
    (replacement : DecodedEntry → Bytes → Option (Result SetOutcome × Bytes)) : Prop where
  distinct : (xs.map (·.name)).Nodup
  splits : Splits es
  remove : ∀ e ∈ es, remove e.qualifiedName = removal e
  removed : ∀ e ∈ es, ∀ after, removal e = some (.ok gone, after) →
    neededEntries (removing e es) + 4 + neededValues (removing e es) ≤ capacity →
    ∃ ys, list after = .ok ys ∧ (listing ys).Perm (withoutName e (listing xs))
  set : ∀ e ∈ es, ∀ value, set e.qualifiedName value = replacement e value
  replaced : ∀ e ∈ es, ∀ value after, replacement e value = some (.ok .replaced, after) →
    ∃ ys, list after = .ok ys ∧ (listing ys).Perm (withValue e value (listing xs))

def RegionEditsByName (region : Bytes) (es : List DecodedEntry) (xs : List XattrEntry) : Prop :=
  EditsByName es xs listRegion (region.length - 4) .removed (planRemoveInInodeRegion region)
    (regionRemoving region es) (planSetInInodeRegion region) (regionReplacing region es)

def BlockEditsByName (block : Bytes) (es : List DecodedEntry) (xs : List XattrEntry) : Prop :=
  ∀ refcount, EditsByName es xs listBlock (block.length - 0x20) .removed
    (fun name => planRemoveFromExternalBlock block name refcount) (blockRemoving block refcount es)
    (fun name value => planSetInExternalBlock block name value refcount)
    (blockReplacing block refcount es)

structure ListedEntries (es : List DecodedEntry) (xs : List XattrEntry) : Prop where
  reports : List.Forall₂ Reports xs es
  names : ∀ e ∈ es, e.nameBytes.length ≤ 255
  keys : (es.map (·.key)).Nodup
  known : ∀ e ∈ es, (prefixForIndex e.nameIndex).isSome = true

section Listed

variable {region block : Bytes} {es : List DecodedEntry} {xs : List XattrEntry} {e : DecodedEntry}

theorem ListedRegion.entries (h : ListedRegion region es xs) : ListedEntries es xs := by
  have hlist := h.listed
  unfold listRegion at hlist
  rw [if_pos h.magic] at hlist
  obtain ⟨es', hes', hall⟩ := entriesFrom_decodeFrom hlist
  obtain rfl : es' = es := Except.ok.inj (hes'.symm.trans h.decoded)
  exact ⟨hall, fun e he => (decodeFrom_name_length h.decoded he).1, h.keys, h.known⟩

theorem ListedBlock.entries (h : ListedBlock block es xs) : ListedEntries es xs := by
  have hlist := h.listed
  have hdec := h.decoded
  have hlen := h.le_length
  unfold listBlock parseEntriesBlock at hlist
  rw [if_neg (fun hne => hne h.magic), if_neg (by omega)] at hlist
  unfold decodeExternalBlockEntries at hdec
  rw [if_neg (by omega)] at hdec
  obtain ⟨es', hes', hall⟩ := entriesFrom_decodeFrom hlist
  obtain rfl : es' = es := Except.ok.inj (hes'.symm.trans hdec)
  exact ⟨hall, fun e he => (decodeFrom_name_length hdec he).1, h.keys, h.known⟩

theorem ListedEntries.storable (h : ListedEntries es xs) (hinum : ∀ e ∈ es, e.valueInum = 0) :
    ∀ e ∈ es, Storable e := storable_of_known h.names h.known hinum

theorem editsByName_iff {ω : Type} {list : Bytes → Result (List XattrEntry)}
    {capacity : Nat} {gone : ω}
    {remove : Bytes → Option (Result ω × Bytes)} {removal : DecodedEntry →
    Option (Result ω × Bytes)} {set : Bytes → Bytes → Option (Result SetOutcome × Bytes)}
    {replacement : DecodedEntry → Bytes → Option (Result SetOutcome × Bytes)}
      (h : ListedEntries es xs)
    (hremove : ∀ e ∈ es, splitQualifiedName e.qualifiedName = some e.key →
      remove e.qualifiedName = removal e)
    (hremoved : ∀ e ∈ es, ∀ after, removal e = some (.ok gone, after) →
      neededEntries (removing e es) + 4 + neededValues (removing e es) ≤ capacity →
      ∃ ys, list after = .ok ys ∧ (listing ys).Perm ((removing e es).map (·.pair)))
    (hset : ∀ e ∈ es, splitQualifiedName e.qualifiedName = some e.key → ∀ value,
      set e.qualifiedName value = replacement e value)
    (hreplaced : ∀ e ∈ es, ∀ value after, replacement e value = some (.ok .replaced, after) →
      ∃ ys, list after = .ok ys ∧ (listing ys).Perm ((replacing e value es).map (·.pair))) :
    EditsByName es xs list capacity gone remove removal set replacement ↔
      ∀ e ∈ es, Nameable e.nameIndex e.nameBytes := by
  rw [← splits_iff h.known]
  constructor
  · exact fun hedits => hedits.splits
  · intro hsplits
    have hnames := qualifiedName_nodup hsplits h.keys
    refine ⟨?_, hsplits, fun e he => hremove e he (hsplits e he), ?_,
      fun e he => hset e he (hsplits e he), ?_⟩
    · rw [names_of_reports h.reports]
      exact hnames
    · intro e he after hgone hroom
      obtain ⟨ys, hys, hperm⟩ := hremoved e he after hgone hroom
      refine ⟨ys, hys, ?_⟩
      unfold withoutName
      rw [listing_of_reports h.reports, ← pairs_removing hnames he]
      exact hperm
    · intro e he value after hdone
      obtain ⟨ys, hys, hperm⟩ := hreplaced e he value after hdone
      refine ⟨ys, hys, ?_⟩
      unfold withValue
      rw [listing_of_reports h.reports, ← pairs_replacing hnames he]
      exact hperm

end Listed

section Edits

variable {region block : Bytes} {es : List DecodedEntry} {xs : List XattrEntry} {e : DecodedEntry}
  {refcount : UInt32}

theorem survivors_eq_removing (hkeys : (es.map (·.key)).Nodup) (he : e ∈ es) :
    survivors e.nameIndex e.nameBytes es = removing e es := survivors_eq_filter hkeys he

theorem planRemoveInInodeRegion_named (h : ListedRegion region es xs) (he : e ∈ es)
    (hsplit : splitQualifiedName e.qualifiedName = some e.key) :
    planRemoveInInodeRegion region e.qualifiedName = regionRemoving region es e := by
  have hmagic : ¬ (region.length < 4 ∨ u32leAt region 0 ≠ xattrMagic) :=
    fun hor => hor.elim (fun hlt => Nat.not_lt.mpr h.four_le hlt) (fun hne => hne h.magic)
  unfold planRemoveInInodeRegion regionRemoving guarded
  rw [hsplit]
  unfold DecodedEntry.key
  dsimp only
  rw [if_neg hmagic]
  obtain ⟨err, hed, hrefuse⟩ | ⟨hed, hrefuse⟩ := editable_cases h.decoded
  · rw [hed, hrefuse]
  · rw [hed, hrefuse]
    dsimp only
    rw [survivors_eq_removing h.keys he, if_neg (length_removing he)]

theorem planRemoveFromExternalBlock_named (h : ListedBlock block es xs) (he : e ∈ es)
    (hsplit : splitQualifiedName e.qualifiedName = some e.key) :
    planRemoveFromExternalBlock block e.qualifiedName refcount = blockRemoving block
      refcount es e := by
  have hlen := h.le_length
  have hmagic : ¬ (block.length < 0x20 ∨ u32leAt block 0 ≠ xattrMagic) :=
    fun hor => hor.elim (fun hlt => by omega) (fun hne => hne h.magic)
  unfold planRemoveFromExternalBlock blockRemoving guarded
  rw [hsplit]
  unfold DecodedEntry.key
  dsimp only
  rw [if_neg hmagic]
  obtain ⟨err, hed, hrefuse⟩ | ⟨hed, hrefuse⟩ := editable_cases h.decoded
  · rw [hed, hrefuse]
  · rw [hed, hrefuse]
    dsimp only
    rw [survivors_eq_removing h.keys he, if_neg (length_removing he)]

theorem checkSetName_named (hsplit : splitQualifiedName e.qualifiedName = some e.key)
    (hname : e.nameBytes.length ≤ 255) :
    checkSetName e.qualifiedName =
      if e.nameBytes.isEmpty ∧ ¬ (e.nameIndex = 2 ∨ e.nameIndex = 3) then
        .error (.invalidArgument "xattr name suffix is empty")
      else .ok (e.nameIndex, e.nameBytes) := by
  unfold checkSetName
  rw [hsplit]
  unfold DecodedEntry.key
  dsimp only
  split
  · rfl
  · rw [if_neg (by omega)]

theorem planSetInInodeRegion_named (h : ListedRegion region es xs) (he : e ∈ es)
    (hsplit : splitQualifiedName e.qualifiedName = some e.key) (value : Bytes) :
    planSetInInodeRegion region e.qualifiedName value = regionReplacing region es e value := by
  obtain ⟨hname, hlen⟩ := decodeFrom_name_length h.decoded he
  rw [List.length_drop] at hlen
  have hcheck := checkSetName_named hsplit hname
  unfold planSetInInodeRegion regionReplacing areaReplacing guarded
  rw [hcheck]
  by_cases hempty : e.nameBytes.isEmpty ∧ ¬ (e.nameIndex = 2 ∨ e.nameIndex = 3)
  · rw [if_pos hempty, if_pos hempty]
  · rw [if_neg hempty, if_neg hempty]
    dsimp only
    rw [if_neg (by omega), if_pos h.magic]
    obtain ⟨err, hed, hrefuse⟩ | ⟨hed, hrefuse⟩ := editable_cases h.decoded
    · rw [hed, hrefuse]
    · rw [hed, hrefuse]
      dsimp only
      rw [assign_eq_map h.keys he]
      rfl

theorem planSetInExternalBlock_named (h : ListedBlock block es xs) (he : e ∈ es)
    (hsplit : splitQualifiedName e.qualifiedName = some e.key) (value : Bytes) :
    planSetInExternalBlock block e.qualifiedName value refcount =
      blockReplacing block refcount es e value := by
  have hname := h.entries.names e he
  have hlen := h.le_length
  have hcheck := checkSetName_named hsplit hname
  unfold planSetInExternalBlock blockReplacing areaReplacing guarded
  rw [hcheck]
  by_cases hempty : e.nameBytes.isEmpty ∧ ¬ (e.nameIndex = 2 ∨ e.nameIndex = 3)
  · rw [if_pos hempty, if_pos hempty]
  · rw [if_neg hempty, if_neg hempty]
    dsimp only
    rw [if_neg (by omega), if_pos h.magic]
    obtain ⟨err, hed, hrefuse⟩ | ⟨hed, hrefuse⟩ := editable_cases h.decoded
    · rw [hed, hrefuse]
    · rw [hed, hrefuse]
      dsimp only
      rw [assign_eq_map h.keys he]
      rfl

theorem region_reads {fs : List DecodedEntry} {after : Bytes} (hlen : region.length ≤ 65536)
    (hstorable : ∀ e ∈ fs, Storable e) (hutf8 : ∀ e ∈ fs, isUtf8 e.nameBytes = true)
    (hroom : neededEntries fs + 4 + neededValues fs ≤ region.length - 4)
    (hencode : encodeInInodeEntries region fs = some after) :
    ∃ ys, listRegion after = .ok ys ∧ (listing ys).Perm (fs.map (·.pair)) := by
  obtain ⟨bytes, hbytes, hstores⟩ := encodeInInodeEntries_stores hroom
  obtain rfl := Option.some.inj (hencode.symm.trans hbytes)
  obtain ⟨ys, hys, hall⟩ := hstores.list hstorable hutf8 hlen
  refine ⟨ys, hys, ?_⟩
  rw [listing_of_reports hall]
  exact (sortBy_perm inInodeOrder fs).map _

theorem block_reads {fs : List DecodedEntry} {after : Bytes} (hlen : block.length ≤ 65536)
    (hle : 0x40 ≤ block.length)
    (hstorable : ∀ e ∈ fs, Storable e) (hutf8 : ∀ e ∈ fs, isUtf8 e.nameBytes = true)
    (hroom : neededEntries fs + 4 + neededValues fs ≤ block.length - 0x20)
    (hencode : encodeExternalBlock block fs refcount = some after) :
    ∃ ys, listBlock after = .ok ys ∧ (listing ys).Perm (fs.map (·.pair)) := by
  obtain ⟨bytes, hbytes, hstores⟩ := encodeExternalBlock_stores refcount (by omega) hroom
  obtain rfl := Option.some.inj (hencode.symm.trans hbytes)
  obtain ⟨ys, hys, hall⟩ := hstores.list hstorable hutf8 hlen
  refine ⟨ys, hys, ?_⟩
  rw [listing_of_reports hall]
  exact (sortBy_perm externalOrder fs).map _

theorem areaReplacing_ok {area : Bytes} {capacity : Nat} {encode : List DecodedEntry → Option Bytes}
    {value after : Bytes}
    (h : areaReplacing area capacity encode es e value = some (.ok .replaced, after)) :
    neededEntries (replacing e value es) + 4 + neededValues (replacing e value es) ≤ capacity ∧
      encode (replacing e value es) = some after ∧ ∀ x ∈ es, x.valueInum = 0 := by
  unfold areaReplacing at h
  split at h
  · cases h
  obtain ⟨hedit, hinum⟩ := guarded_ok h
  split at hedit
  · cases hedit
  · rename_i hroom
    obtain ⟨bytes, hbytes, hsame⟩ := Option.map_eq_some_iff.mp hedit
    obtain ⟨-, rfl⟩ := Prod.mk.inj hsame
    exact ⟨by omega, hbytes, hinum⟩

theorem regionEditsByName_iff (h : ListedRegion region es xs) :
    RegionEditsByName region es xs ↔ ∀ e ∈ es, Nameable e.nameIndex e.nameBytes := by
  have hutf8 := utf8_of_reports h.entries.reports
  refine editsByName_iff h.entries (fun e he hs => planRemoveInInodeRegion_named h he hs) ?_
    (fun e he hs value => planSetInInodeRegion_named h he hs value) ?_
  · intro e he after hgone hroom
    obtain ⟨hedit, hinum⟩ := guarded_ok hgone
    obtain ⟨bytes, hbytes, hsame⟩ := Option.map_eq_some_iff.mp hedit
    obtain ⟨-, rfl⟩ := Prod.mk.inj hsame
    exact region_reads h.length_le (forall_removing (h.entries.storable hinum))
      (forall_removing hutf8) hroom hbytes
  · intro e he value after hdone
    obtain ⟨hroom, hbytes, hinum⟩ := areaReplacing_ok hdone
    exact region_reads h.length_le
      (forall_replacing (fun x hx => ⟨hx.name_le, hx.named, hx.inum⟩) (h.entries.storable hinum))
      (forall_replacing (fun _ hx => hx) hutf8) hroom hbytes

theorem blockEditsByName_iff (h : ListedBlock block es xs) :
    BlockEditsByName block es xs ↔ ∀ e ∈ es, Nameable e.nameIndex e.nameBytes := by
  have hutf8 := utf8_of_reports h.entries.reports
  have hiff : ∀ refcount, EditsByName es xs listBlock (block.length - 0x20) .removed
      (fun name => planRemoveFromExternalBlock block name refcount)
        (blockRemoving block refcount es)
      (fun name value => planSetInExternalBlock block name value refcount)
      (blockReplacing block refcount es) ↔ ∀ e ∈ es, Nameable e.nameIndex e.nameBytes := by
    intro refcount
    refine editsByName_iff h.entries (fun e he hs => planRemoveFromExternalBlock_named h he hs) ?_
      (fun e he hs value => planSetInExternalBlock_named h he hs value) ?_
    · intro e he after hgone hroom
      obtain ⟨hedit, hinum⟩ := guarded_ok hgone
      split at hedit
      · cases hedit
      obtain ⟨bytes, hbytes, hsame⟩ := Option.map_eq_some_iff.mp hedit
      obtain ⟨-, rfl⟩ := Prod.mk.inj hsame
      exact block_reads h.length_le h.le_length (forall_removing (h.entries.storable hinum))
        (forall_removing hutf8) hroom hbytes
    · intro e he value after hdone
      obtain ⟨hroom, hbytes, hinum⟩ := areaReplacing_ok hdone
      exact block_reads h.length_le h.le_length
        (forall_replacing (fun x hx => ⟨hx.name_le, hx.named, hx.inum⟩) (h.entries.storable hinum))
        (forall_replacing (fun _ hx => hx) hutf8) hroom hbytes
  exact ⟨fun hedits => (hiff 1).mp (hedits 1), fun hnameable refcount =>
    (hiff refcount).mpr hnameable⟩

end Edits

/-- The attributes of an area can be edited under the names they are listed by exactly when no
earlier prefix of the table opens one of these names. -/
theorem listed_names_edit_iff {region block : Bytes} {es bs : List DecodedEntry}
    {xs ys : List XattrEntry}
    (hregion : ListedRegion region es xs) (hblock : ListedBlock block bs ys) :
    (RegionEditsByName region es xs ↔ ∀ e ∈ es, Nameable e.nameIndex e.nameBytes) ∧
      (BlockEditsByName block bs ys ↔ ∀ e ∈ bs, Nameable e.nameIndex e.nameBytes) ∧
      ∀ nameIndex front suffix, prefixForIndex nameIndex = some front →
        (splitQualifiedName (front ++ suffix) = some (nameIndex, suffix) ↔
        Nameable nameIndex suffix) :=
  ⟨regionEditsByName_iff hregion, blockEditsByName_iff hblock,
    fun _ _ _ h => splitQualifiedName_append_iff h⟩

def aclEntries : List DecodedEntry := [⟨1, [0x61], [1, 2, 3], 0⟩, ⟨2, [], [2, 0, 0, 0], 0⟩]

def aclTable (first second : UInt8) : Bytes :=
  [1, 1, first, 0, 0, 0, 0, 0, 3, 0, 0, 0, 0, 0, 0, 0, 0x61, 0, 0, 0] ++
    [0, 2, second, 0, 0, 0, 0, 0, 4, 0, 0, 0, 0, 0, 0, 0]

def aclBytes : Bytes := [2, 0, 0, 0, 1, 2, 3, 0]

def aclRegion : Bytes := u32le xattrMagic ++ aclTable 56 52 ++ List.replicate 16 0 ++ aclBytes

def aclBlock : Bytes := headerBytes 1 0 ++ aclTable 92 88 ++ List.replicate 20 0 ++ aclBytes

def systemAclAccess : Bytes := [0x73, 0x79, 0x73, 0x74, 0x65, 0x6D, 0x2E] ++ posixAclAccess

def aclReported : List XattrEntry :=
  [⟨[0x75, 0x73, 0x65, 0x72, 0x2E, 0x61], [1, 2, 3], 0, 3⟩, ⟨systemAclAccess, [2, 0, 0, 0], 0, 4⟩]

theorem aclRegion_listed : ListedRegion aclRegion aclEntries aclReported where
  four_le := by decide
  length_le := by decide
  magic := by decide
  decoded := by decide
  listed := by decide
  keys := by decide
  known := by decide

theorem aclBlock_listed : ListedBlock aclBlock aclEntries aclReported where
  le_length := by decide
  length_le := by decide
  magic := by decide
  decoded := by decide
  listed := by decide
  keys := by decide
  known := by decide

theorem aclEntries_nameable : ∀ e ∈ aclEntries, Nameable e.nameIndex e.nameBytes := by
  intro e he
  obtain rfl | rfl : e = ⟨1, [0x61], [1, 2, 3], 0⟩ ∨ e = ⟨2, [], [2, 0, 0, 0], 0⟩ := by
    simpa [aclEntries] using he
  · exact ⟨by decide, fun h => absurd h.1 (by decide)⟩
  · exact ⟨by decide, fun h => absurd h.1 (by decide)⟩

/-- Both names edit their entries, in an inode and in a block. -/
theorem listed_acl_names_edit :
    RegionEditsByName aclRegion aclEntries aclReported ∧ BlockEditsByName aclBlock aclEntries
      aclReported := by
  obtain ⟨hregion, hblock, -⟩ := listed_names_edit_iff aclRegion_listed aclBlock_listed
  exact ⟨hregion.mpr aclEntries_nameable, hblock.mpr aclEntries_nameable⟩

def richaclRegion : Bytes :=
  u32le xattrMagic ++ ([0, 8, 0, 0] ++ List.replicate 56 0)

def systemRichacl : Bytes :=
  [0x73, 0x79, 0x73, 0x74, 0x65, 0x6D, 0x2E, 0x72, 0x69, 0x63, 0x68, 0x61, 0x63, 0x6C]

def richaclEntry : DecodedEntry := ⟨8, [], [], 0⟩

/-- The listed `system.richacl` is not found, and setting it adds a second. -/
theorem richacl_not_named :
    ListedRegion richaclRegion [richaclEntry] [⟨systemRichacl, [], 0, 0⟩] ∧
      planRemoveInInodeRegion richaclRegion systemRichacl = some (.ok .notFound, richaclRegion) ∧
      ∃ after, planSetInInodeRegion richaclRegion systemRichacl [0x61] =
        some (.ok .inserted, after) := by
  have hlisted : ListedRegion richaclRegion [richaclEntry] [⟨systemRichacl, [], 0, 0⟩] := {
    four_le := by decide
    length_le := by decide
    magic := by decide
    decoded := by decide
    listed := by decide
    keys := by decide
    known := by decide }
  refine ⟨hlisted, by decide, ?_⟩
  have hcheck : checkSetName systemRichacl = .ok (7, systemRichacl.drop 7) := by decide
  have hdec : editable (decodeInInodeEntries (richaclRegion.drop 4)) = .ok [richaclEntry] := by
    decide
  have hassign : assign 7 (systemRichacl.drop 7) [0x61] [richaclEntry] =
      ([richaclEntry, ⟨7, systemRichacl.drop 7, [0x61], 0⟩], .inserted) := by decide
  have hencode : (encodeInInodeEntries richaclRegion
      [richaclEntry, ⟨7, systemRichacl.drop 7, [0x61], 0⟩]).isSome = true :=
    (encodeInInodeEntries_isSome_iff (by decide)).mpr (by decide)
  obtain ⟨after, hafter⟩ := Option.isSome_iff_exists.mp hencode
  refine ⟨after, ?_⟩
  unfold planSetInInodeRegion
  rw [hcheck]
  dsimp only
  rw [if_neg (by decide), if_pos hlisted.magic, hdec]
  dsimp only
  rw [hassign]
  dsimp only
  rw [if_neg (by decide), hafter]
  rfl

end FsExt4.Xattr
