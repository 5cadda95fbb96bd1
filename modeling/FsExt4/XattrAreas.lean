import FsExt4.XattrNames
import Mathlib.Logic.Function.Basic
import Mathlib.Order.Interval.Finset.Nat

namespace FsExt4.Xattr

open Lib

def OneChar (b : UInt8) : Prop := [Char.ofNat b.toNat].utf8Encode.data.toList = [b]

theorem isUtf8_cons {b : UInt8} {s : Bytes} (h : OneChar b) : isUtf8 (b :: s) = isUtf8 s := by
  have hsplit : ByteArray.mk (b :: s).toArray =
      [Char.ofNat b.toNat].utf8Encode ++ ByteArray.mk s.toArray := by
    apply ByteArray.ext
    rw [ByteArray.data_append, ← Array.toList_inj, Array.toList_append, h]
    rfl
  unfold isUtf8
  rw [Bool.eq_iff_iff, ByteArray.validateUTF8_eq_true_iff,
    ByteArray.validateUTF8_eq_true_iff, hsplit]
  exact ByteArray.isValidUTF8_utf8Encode_singleton_append_iff

theorem isUtf8_append {front s : Bytes} (h : ∀ b ∈ front, OneChar b) : isUtf8 (front ++ s) =
    isUtf8 s := by
  induction front with
  | nil => rfl
  | cons b rest ih =>
    rw [List.cons_append, isUtf8_cons (h b List.mem_cons_self)]
    exact ih (fun c hc => h c (List.mem_cons_of_mem _ hc))

theorem isUtf8_suffix {name suffix : Bytes} {nameIndex : UInt8}
    (hsplit : splitQualifiedName name = some (nameIndex, suffix)) (hname : isUtf8 name = true) :
    isUtf8 suffix = true := by
  obtain ⟨front, hfront, rfl⟩ := splitQualifiedName_eq hsplit
  have htable : ∀ p ∈ namePrefixes, ∀ b ∈ p.2, [Char.ofNat b.toNat].utf8Encode.data.toList =
      [b] := by
    decide +kernel
  rw [isUtf8_append (htable _ (mem_namePrefixes.mp hfront))] at hname
  exact hname

def Apart (r s : Nat × Nat) : Prop := r.1 + r.2 ≤ s.1 ∨ s.1 + s.2 ≤ r.1

theorem sum_le_of_apart (ranges : List (Nat × Nat)) (lo hi : Nat)
    (hin : ∀ r ∈ ranges, lo ≤ r.1 ∧ r.1 + r.2 ≤ hi) (hapart : ranges.Pairwise Apart) :
    (ranges.map Prod.snd).sum ≤ hi - lo := by
  -- the points the ranges cover
  have hcover : ∃ points : Finset Nat, points.card = (ranges.map Prod.snd).sum ∧
      ∀ n ∈ points, ∃ r ∈ ranges, r.1 ≤ n ∧ n < r.1 + r.2 := by
    induction ranges with
    | nil => exact ⟨∅, rfl, fun n hn => absurd hn (Finset.notMem_empty n)⟩
    | cons r rest ih =>
      rw [List.pairwise_cons] at hapart
      obtain ⟨points, hcard, hpoints⟩ :=
        ih (fun s hs => hin s (List.mem_cons_of_mem _ hs)) hapart.2
      refine ⟨Finset.Ico r.1 (r.1 + r.2) ∪ points, ?_, ?_⟩
      · rw [Finset.card_union_of_disjoint, Nat.card_Ico, hcard, List.map_cons, List.sum_cons]
        · omega
        · rw [Finset.disjoint_left]
          intro n hn hrest
          rw [Finset.mem_Ico] at hn
          obtain ⟨s, hs, hlow, hhigh⟩ := hpoints n hrest
          obtain h | h := hapart.1 s hs <;> omega
      · intro n hn
        obtain hn | hn := Finset.mem_union.mp hn
        · exact ⟨r, List.mem_cons_self, Finset.mem_Ico.mp hn⟩
        · obtain ⟨s, hs, hbounds⟩ := hpoints n hn
          exact ⟨s, List.mem_cons_of_mem _ hs, hbounds⟩
  obtain ⟨points, hcard, hpoints⟩ := hcover
  have hsub : points ⊆ Finset.Ico lo hi := by
    intro n hn
    obtain ⟨r, hr, hlow, hhigh⟩ := hpoints n hn
    have := hin r hr
    rw [Finset.mem_Ico]
    omega
  rw [← hcard, ← Nat.card_Ico]
  exact Finset.card_le_card hsub

/-- The attributes: a value for each namespace and suffix that has one. -/
def attrs (es : List DecodedEntry) (key : UInt8 × Bytes) : Option Bytes :=
  (es.find? (fun e => e.key == key)).map (·.value)

/-- Distinct entries, in text and named, whose values the area itself holds. -/
structure WellFormedEntries (es : List DecodedEntry) : Prop where
  keys : (es.map (·.key)).Nodup
  utf8 : ∀ e ∈ es, isUtf8 e.nameBytes = true
  named : ∀ e ∈ es, ¬ (e.nameIndex = 0 ∧ e.nameBytes = [])
  inum : ∀ e ∈ es, e.valueInum = 0

section Map

variable {es fs : List DecodedEntry} {e : DecodedEntry} {nameIndex : UInt8} {suffix value : Bytes}

theorem attrs_eq_some (hkeys : (es.map (·.key)).Nodup) {key : UInt8 × Bytes} {v : Bytes} :
    attrs es key = some v ↔ ∃ e ∈ es, e.key = key ∧ e.value = v := by
  unfold attrs
  constructor
  · intro h
    obtain ⟨e, hfind, hv⟩ := Option.map_eq_some_iff.mp h
    have hkey := @List.find?_some _ (fun e : DecodedEntry => e.key == key) _ _ hfind
    rw [beq_iff_eq] at hkey
    exact ⟨e, List.mem_of_find?_eq_some hfind, hkey, hv⟩
  · rintro ⟨e, he, rfl, rfl⟩
    have hsome : (es.find? (fun x => x.key == e.key)).isSome = true := by
      rw [List.find?_isSome]
      exact ⟨e, he, by simp⟩
    obtain ⟨x, hx⟩ := Option.isSome_iff_exists.mp hsome
    have hkey := @List.find?_some _ (fun x : DecodedEntry => x.key == e.key) _ _ hx
    rw [beq_iff_eq] at hkey
    rw [hx, List.inj_on_of_nodup_map hkeys (List.mem_of_find?_eq_some hx) he hkey]
    rfl

theorem attrs_eq_none {key : UInt8 × Bytes} : attrs es key = none ↔ ∀ e ∈ es, e.key ≠ key := by
  unfold attrs
  rw [Option.map_eq_none_iff, List.find?_eq_none]
  simp

theorem WellFormedEntries.perm (h : WellFormedEntries es) (hperm : fs.Perm es) :
    WellFormedEntries fs :=
  ⟨(hperm.map _).nodup_iff.mpr h.keys, fun e he => h.utf8 e (hperm.mem_iff.mp he),
    fun e he => h.named e (hperm.mem_iff.mp he), fun e he => h.inum e (hperm.mem_iff.mp he)⟩

theorem WellFormedEntries.sublist (h : WellFormedEntries es) (hsub : fs.Sublist es) :
    WellFormedEntries fs :=
  ⟨(hsub.map _).nodup h.keys, fun e he => h.utf8 e (hsub.subset he),
    fun e he => h.named e (hsub.subset he), fun e he => h.inum e (hsub.subset he)⟩

theorem attrs_perm (hkeys : (es.map (·.key)).Nodup) (hperm : fs.Perm es) : attrs fs = attrs es := by
  funext key
  apply Option.ext
  intro v
  rw [attrs_eq_some hkeys, attrs_eq_some ((hperm.map _).nodup_iff.mpr hkeys)]
  simp only [hperm.mem_iff]

theorem attrs_survivors (hkeys : (es.map (·.key)).Nodup) :
    attrs (survivors nameIndex suffix es) = Function.update (attrs es)
      (nameIndex, suffix) none := by
  funext key
  have hkept : ((survivors nameIndex suffix es).map (·.key)).Nodup :=
    (List.filter_sublist.map _).nodup hkeys
  rw [Function.update_apply]
  by_cases hkey : key = (nameIndex, suffix)
  · rw [if_pos hkey, attrs_eq_none]
    intro e he hek
    have hno := (List.mem_filter.mp he).2
    rw [is_iff_key.mpr (hek.trans hkey)] at hno
    cases hno
  · rw [if_neg hkey]
    apply Option.ext
    intro v
    rw [attrs_eq_some hkept, attrs_eq_some hkeys]
    constructor
    · rintro ⟨e, he, hek, hv⟩
      exact ⟨e, List.mem_of_mem_filter he, hek, hv⟩
    · rintro ⟨e, he, hek, hv⟩
      refine ⟨e, List.mem_filter.mpr ⟨he, ?_⟩, hek, hv⟩
      have hno : e.is nameIndex suffix = false := by
        rw [Bool.eq_false_iff]
        exact fun h => hkey (hek.symm.trans (is_iff_key.mp h))
      rw [hno]
      rfl

theorem length_survivors : (survivors nameIndex suffix es).length = es.length ↔
    attrs es (nameIndex, suffix) = none := by
  unfold survivors
  rw [List.length_filter_eq_length_iff, attrs_eq_none]
  apply forall₂_congr
  intro e _
  rw [Bool.not_eq_true', ← Bool.not_eq_true, is_iff_key]

theorem assign_new (h : attrs es (nameIndex, suffix) = none) :
    assign nameIndex suffix value es = (es ++ [⟨nameIndex, suffix, value, 0⟩], .inserted) := by
  rw [attrs_eq_none] at h
  induction es with
  | nil => rfl
  | cons a rest ih =>
    have hno : ¬ a.is nameIndex suffix = true := by
      rw [is_iff_key]
      exact h a List.mem_cons_self
    rw [assign, if_neg hno, ih (fun e he => h e (List.mem_cons_of_mem _ he))]
    rfl

theorem assign_present (hkeys : (es.map (·.key)).Nodup) (he : e ∈ es)
    (hkey : e.key = (nameIndex, suffix)) :
    assign nameIndex suffix value es = (replacing e value es, .replaced) := by
  obtain ⟨rfl, rfl⟩ := Prod.mk.inj hkey
  exact assign_eq_map hkeys he value

theorem keys_replacing : (replacing e value es).map (·.key) = es.map (·.key) := by
  unfold replacing
  rw [List.map_map]
  apply List.map_congr_left
  intro x _
  simp only [Function.comp_apply]
  split <;> rfl

theorem WellFormedEntries.assign (h : WellFormedEntries es)
    (hname : ¬ (nameIndex = 0 ∧ suffix = [])) (hutf8 : isUtf8 suffix = true) :
    WellFormedEntries (assign nameIndex suffix value es).1 := by
  cases hattr : attrs es (nameIndex, suffix) with
  | none =>
    rw [assign_new hattr]
    have hall : ∀ {p : DecodedEntry → Prop}, (∀ e ∈ es, p e) → p ⟨nameIndex, suffix, value, 0⟩ →
        ∀ e ∈ es ++ [⟨nameIndex, suffix, value, 0⟩], p e := by
      intro p hes hnew e he
      obtain he | he := List.mem_append.mp he
      · exact hes e he
      · rw [List.mem_singleton.mp he]
        exact hnew
    refine ⟨?_, hall h.utf8 hutf8, hall h.named hname, hall h.inum rfl⟩
    rw [List.map_append, List.nodup_append]
    refine ⟨h.keys, List.nodup_singleton _, ?_⟩
    intro a ha b hb
    obtain ⟨e, he, rfl⟩ := List.mem_map.mp ha
    obtain rfl := List.mem_singleton.mp hb
    exact attrs_eq_none.mp hattr e he
  | some v =>
    obtain ⟨e, he, hkey, -⟩ := (attrs_eq_some h.keys).mp hattr
    rw [assign_present h.keys he hkey]
    refine ⟨?_, forall_replacing (fun _ hx => hx) h.utf8, forall_replacing (fun _ hx => hx) h.named,
      forall_replacing (fun _ hx => hx) h.inum⟩
    rw [keys_replacing]
    exact h.keys

theorem attrs_append_new (h : attrs es e.key = none) :
    attrs (es ++ [e]) = Function.update (attrs es) e.key (some e.value) := by
  funext key
  unfold attrs
  rw [Function.update_apply, List.find?_append]
  by_cases hkey : key = e.key
  · subst hkey
    have hnone : es.find? (fun x => x.key == e.key) = none := by
      rw [List.find?_eq_none]
      simpa using attrs_eq_none.mp h
    rw [if_pos rfl, hnone]
    simp
  · have hmiss : [e].find? (fun x => x.key == key) = none := by
      rw [List.find?_eq_none]
      intro x hx
      rw [List.mem_singleton.mp hx, beq_iff_eq]
      exact fun h => hkey h.symm
    rw [if_neg hkey, hmiss, Option.or_none]

theorem attrs_replacing (hkeys : (es.map (·.key)).Nodup) (he : e ∈ es) :
    attrs (replacing e value es) = Function.update (attrs es) e.key (some value) := by
  have hkept : ((replacing e value es).map (·.key)).Nodup := by
    rw [keys_replacing]
    exact hkeys
  funext key
  rw [Function.update_apply]
  apply Option.ext
  intro w
  rw [attrs_eq_some hkept]
  by_cases hkey : key = e.key
  · rw [if_pos hkey, Option.some.injEq]
    constructor
    · rintro ⟨x, hx, hxk, rfl⟩
      obtain ⟨y, hy, rfl⟩ := List.mem_map.mp hx
      split
      · rfl
      · rename_i hne
        rw [if_neg hne] at hxk
        exact absurd (List.inj_on_of_nodup_map hkeys hy he (hxk.trans hkey)) hne
    · rintro rfl
      exact ⟨{ e with value := value }, List.mem_map.mpr ⟨e, he, if_pos rfl⟩, hkey.symm, rfl⟩
  · rw [if_neg hkey, attrs_eq_some hkeys]
    constructor
    · rintro ⟨x, hx, hxk, rfl⟩
      obtain ⟨y, hy, rfl⟩ := List.mem_map.mp hx
      by_cases hye : y = e
      · rw [if_pos hye] at hxk
        subst hye
        exact absurd hxk.symm hkey
      · rw [if_neg hye] at hxk ⊢
        exact ⟨y, hy, hxk, rfl⟩
    · rintro ⟨y, hy, hyk, rfl⟩
      have hye : y ≠ e := by
        rintro rfl
        exact hkey hyk.symm
      exact ⟨y, List.mem_map.mpr ⟨y, hy, if_neg hye⟩, hyk, rfl⟩

theorem attrs_assign (h : WellFormedEntries es) :
    attrs (assign nameIndex suffix value es).1 =
      Function.update (attrs es) (nameIndex, suffix) (some value) := by
  cases hattr : attrs es (nameIndex, suffix) with
  | none =>
    rw [assign_new hattr]
    exact attrs_append_new hattr
  | some v =>
    obtain ⟨e, he, hkey, -⟩ := (attrs_eq_some h.keys).mp hattr
    rw [assign_present h.keys he hkey, ← hkey]
    exact attrs_replacing h.keys he

theorem assign_outcome (h : WellFormedEntries es) :
    (assign nameIndex suffix value es).2 =
      if (attrs es (nameIndex, suffix)).isSome then .replaced else .inserted := by
  cases hattr : attrs es (nameIndex, suffix) with
  | none => rw [assign_new hattr]; rfl
  | some v =>
    obtain ⟨e, he, hkey, -⟩ := (attrs_eq_some h.keys).mp hattr
    rw [assign_present h.keys he hkey]
    rfl

end Map

/-- The ranges of the values, padded, that the entries from `pos` on point to. -/
def extentsFrom (buf : Bytes) : List DecodedEntry → Nat → List (Nat × Nat)
  | [], _ => []
  | e :: rest, pos =>
    if e.value.isEmpty then extentsFrom buf rest (pos + e.entryPadded)
    else ((u16leAt buf (pos + 2)).toNat, e.valuePadded) :: extentsFrom buf rest
      (pos + e.entryPadded)

/-- The end of the entries from `pos` on, with the zero word behind them where it is looked for. -/
def tableEnd (len pos : Nat) (es : List DecodedEntry) : Nat :=
  if pos + neededEntries es + 16 ≤ len then pos + neededEntries es + 4 else pos + neededEntries es

/-- The values lie behind the entries, in the area and apart from each other. -/
structure WellPlaced (buf : Bytes) (pos : Nat) (es : List DecodedEntry) : Prop where
  inside : ∀ r ∈ extentsFrom buf es pos, tableEnd buf.length pos es ≤ r.1 ∧ r.1 + r.2 ≤ buf.length
  apart : (extentsFrom buf es pos).Pairwise Apart

section Placed

variable {buf : Bytes} {es : List DecodedEntry} {pos : Nat}

theorem sum_extentsFrom (buf : Bytes) (es : List DecodedEntry) (pos : Nat) :
    ((extentsFrom buf es pos).map Prod.snd).sum = neededValues es := by
  induction es generalizing pos with
  | nil => rfl
  | cons e rest ih =>
    rw [extentsFrom, neededValues_cons]
    split
    · rename_i hempty
      have hzero : e.valuePadded = 0 := by
        unfold DecodedEntry.valuePadded
        rw [List.isEmpty_iff.mp hempty]
        rfl
      rw [ih, hzero, Nat.zero_add]
    · rw [List.map_cons, List.sum_cons, ih]

theorem WellPlaced.room (h : WellPlaced buf pos es) :
    neededValues es = 0 ∨ pos + neededEntries es + neededValues es ≤ buf.length := by
  have hsum := sum_le_of_apart _ _ _ h.inside h.apart
  rw [sum_extentsFrom] at hsum
  have hend : pos + neededEntries es ≤ tableEnd buf.length pos es := by
    unfold tableEnd
    split <;> omega
  omega

theorem packed_extents {hash : DecodedEntry → Option UInt32} {valueEnd : Nat}
    (h : PackedAt hash buf es pos valueEnd) (hlen : buf.length ≤ 65536) :
    (∀ r ∈ extentsFrom buf es pos, valueEnd - neededValues es ≤ r.1 ∧ r.1 + r.2 ≤ valueEnd) ∧
      (extentsFrom buf es pos).Pairwise Apart := by
  induction es generalizing pos valueEnd with
  | nil => exact ⟨fun r hr => absurd hr List.not_mem_nil, .nil⟩
  | cons e rest ih =>
    obtain ⟨hentry, ⟨hroom, hend, -⟩, hrest⟩ := h
    obtain ⟨hin, hapart⟩ := ih hrest
    rw [extentsFrom, neededValues_cons]
    have hlower : ∀ r ∈ extentsFrom buf rest (pos + e.entryPadded),
        valueEnd - (e.valuePadded + neededValues rest) ≤ r.1 ∧
        r.1 + r.2 ≤ valueEnd - e.valuePadded := by
      intro r hr
      have := hin r hr
      omega
    split
    · refine ⟨fun r hr => ?_, hapart⟩
      have := hlower r hr
      omega
    · rename_i hvalue
      have hpos : 0 < e.valuePadded := by
        have hval := e.le_valuePadded
        have hne : e.value.length ≠ 0 := fun h0 =>
          hvalue (by rw [List.length_eq_zero_iff.mp h0]; rfl)
        omega
      have hoffs : (u16leAt buf (pos + 2)).toNat = valueEnd - e.valuePadded := by
        rw [hentry.valueOffs, UInt16.toNat_ofNat']
        unfold DecodedEntry.offs
        rw [if_neg hvalue, Nat.mod_eq_of_lt (by omega)]
      rw [hoffs]
      constructor
      · intro r hr
        obtain rfl | hr := List.mem_cons.mp hr
        · dsimp only
          omega
        · have := hlower r hr
          omega
      · refine List.Pairwise.cons ?_ hapart
        intro r hr
        right
        have := hlower r hr
        dsimp only
        omega

theorem wellPlaced_packed {hash : DecodedEntry → Option UInt32}
    (h : PackedAt hash buf es pos buf.length)
    (hlen : buf.length ≤ 65536) (hroom : pos + neededEntries es + 4 + neededValues es ≤
      buf.length) :
    WellPlaced buf pos es := by
  obtain ⟨hin, hapart⟩ := packed_extents h hlen
  refine ⟨?_, hapart⟩
  intro r hr
  have hbounds := hin r hr
  have hend : tableEnd buf.length pos es ≤ pos + neededEntries es + 4 := by
    unfold tableEnd
    split <;> omega
  omega

end Placed

instance : Std.TransCmp externalOrder := by
  unfold externalOrder
  infer_instance

def Ordered (es : List DecodedEntry) : Prop :=
  es.Pairwise (fun a b => (externalOrder a b).isLE = true)

theorem ordered_sortBy (es : List DecodedEntry) : Ordered (sortBy externalOrder es) := by
  apply List.pairwise_mergeSort
  · intro a b c hab hbc
    exact Std.TransCmp.isLE_trans hab hbc
  · intro a b
    rw [Bool.or_eq_true]
    have hswap := @Std.OrientedCmp.eq_swap _ externalOrder _ a b
    cases hba : externalOrder b a with
    | lt => exact .inr rfl
    | eq => exact .inr rfl
    | gt =>
      left
      rw [hswap, hba]
      rfl

def storedHashes (buf : Bytes) : List DecodedEntry → Nat → List UInt32
  | [], _ => []
  | e :: rest, pos => u32leAt buf (pos + 12) :: storedHashes buf rest (pos + e.entryPadded)

theorem storedHashes_packed {buf : Bytes} {es : List DecodedEntry} {pos valueEnd : Nat}
    (h : PackedAt (fun e => some e.hash) buf es pos valueEnd) :
    storedHashes buf es pos = es.map (·.hash) := by
  induction es generalizing pos valueEnd with
  | nil => rfl
  | cons e rest ih =>
    obtain ⟨hentry, -, hrest⟩ := h
    rw [storedHashes, hentry.hash, ih hrest]
    rfl

def regionEntries (region : Bytes) : Result (List DecodedEntry) :=
  if u32leAt region 0 = xattrMagic then decodeInInodeEntries (region.drop 4) else .ok []

/-- A region of well-formed entries; no inode has a larger one. -/
structure WellFormedRegion (region : Bytes) (es : List DecodedEntry) : Prop where
  length_le : region.length ≤ 65536
  decoded : regionEntries region = .ok es
  entries : WellFormedEntries es
  placed : WellPlaced (region.drop 4) 0 es

/-- A block of well-formed entries; no block is smaller or larger. -/
structure WellFormedBlock (block : Bytes) (es : List DecodedEntry) : Prop where
  le_length : 0x40 ≤ block.length
  length_le : block.length ≤ 65536
  magic : u32leAt block 0 = xattrMagic
  decoded : decodeExternalBlockEntries block = .ok es
  entries : WellFormedEntries es
  placed : WellPlaced block 32 es

section Areas

variable {region block bytes : Bytes} {es fs : List DecodedEntry} {len : Nat} {refcount : UInt32}

theorem WellFormedEntries.storable (h : WellFormedEntries es)
    (hname : ∀ e ∈ es, e.nameBytes.length ≤ 255) :
    ∀ e ∈ es, Storable e := fun e he => ⟨hname e he, h.named e he, h.inum e he⟩

theorem WellFormedRegion.names (h : WellFormedRegion region es) : ∀ e ∈ es,
    e.nameBytes.length ≤ 255 := by
  have hdec := h.decoded
  unfold regionEntries at hdec
  split at hdec
  · exact fun e he => (decodeFrom_name_length hdec he).1
  · obtain rfl := Except.ok.inj hdec
    exact fun e he => absurd he List.not_mem_nil

theorem WellFormedBlock.names (h : WellFormedBlock block es) : ∀ e ∈ es,
    e.nameBytes.length ≤ 255 := by
  have hdec := h.decoded
  have hlen := h.le_length
  unfold decodeExternalBlockEntries at hdec
  rw [if_neg (by omega)] at hdec
  exact fun e he => (decodeFrom_name_length hdec he).1

theorem RegionStores.wellFormed (h : RegionStores len bytes es) (hes : WellFormedEntries es)
    (hname : ∀ e ∈ es, e.nameBytes.length ≤ 255) (hlen : len ≤ 65536) :
    WellFormedRegion bytes (sortBy inInodeOrder es) := by
  have hperm := sortBy_perm inInodeOrder es
  have hlength := h.length
  have hroom := h.room
  obtain ⟨hne, hnv⟩ := needed_perm hperm
  have hbuf : (bytes.drop 4).length = len - 4 := by rw [List.length_drop, hlength]
  refine ⟨by omega, ?_, hes.perm hperm, ?_⟩
  · unfold regionEntries
    rw [if_pos h.magic]
    exact h.decode (hes.storable hname) hlen
  · have hpacked := h.packed
    rw [← hbuf] at hpacked
    exact wellPlaced_packed hpacked (by omega) (by omega)

theorem BlockStores.wellFormed (h : BlockStores len bytes refcount es) (hes : WellFormedEntries es)
    (hname : ∀ e ∈ es, e.nameBytes.length ≤ 255) (hle : 0x40 ≤ len) (hlen : len ≤ 65536) :
    WellFormedBlock bytes (sortBy externalOrder es) := by
  have hperm := sortBy_perm externalOrder es
  have hlength := h.length
  have hroom := h.room
  obtain ⟨hne, hnv⟩ := needed_perm hperm
  refine ⟨by omega, by omega, h.magic, h.decode (hes.storable hname) hlen, hes.perm hperm, ?_⟩
  have hpacked := h.packed
  rw [← hlength] at hpacked
  exact wellPlaced_packed hpacked (by omega) (by omega)

/-- The reader's view of a region is of its entries, and the map they make is `map`. -/
def RegionReads (region : Bytes) (map : UInt8 × Bytes → Option Bytes) : Prop :=
  ∃ es xs, WellFormedRegion region es ∧ attrs es = map ∧ listRegion region = .ok xs ∧
    List.Forall₂ Reports xs es

/-- In a block the entries are also in order, under the hashes of what they hold. -/
def BlockReads (block : Bytes) (map : UInt8 × Bytes → Option Bytes) : Prop :=
  ∃ es xs, WellFormedBlock block es ∧ attrs es = map ∧ listBlock block = .ok xs ∧
    List.Forall₂ Reports xs es ∧ Ordered es ∧ storedHashes block es 32 = es.map (·.hash) ∧
    u32leAt block 12 = blockHash (es.map (·.hash))

theorem encodeInInodeEntries_reads (hlen : region.length ≤ 65536) (hes : WellFormedEntries es)
    (hname : ∀ e ∈ es, e.nameBytes.length ≤ 255)
    (hroom : neededEntries es + 4 + neededValues es ≤ region.length - 4) :
    ∃ after, encodeInInodeEntries region es = some after ∧ after.length = region.length ∧
      RegionReads after (attrs es) := by
  obtain ⟨after, hencode, hstores⟩ := encodeInInodeEntries_stores hroom
  obtain ⟨xs, hxs, hall⟩ := hstores.list (hes.storable hname) hes.utf8 hlen
  exact ⟨after, hencode, hstores.length, _, xs, hstores.wellFormed hes hname hlen,
    attrs_perm hes.keys (sortBy_perm _ _), hxs, hall⟩

theorem encodeExternalBlock_reads (refcount : UInt32) (hle : 0x40 ≤ block.length)
    (hlen : block.length ≤ 65536) (hes : WellFormedEntries es)
    (hname : ∀ e ∈ es, e.nameBytes.length ≤ 255)
    (hroom : neededEntries es + 4 + neededValues es ≤ block.length - 0x20) :
    ∃ after, encodeExternalBlock block es refcount = some after ∧ after.length = block.length ∧
      BlockReads after (attrs es) := by
  obtain ⟨after, hencode, hstores⟩ := encodeExternalBlock_stores refcount (by omega) hroom
  obtain ⟨xs, hxs, hall⟩ := hstores.list (hes.storable hname) hes.utf8 hlen
  exact ⟨after, hencode, hstores.length, _, xs, hstores.wellFormed hes hname hle hlen,
    attrs_perm hes.keys (sortBy_perm _ _), hxs, hall, ordered_sortBy es,
    storedHashes_packed hstores.packed, hstores.hash⟩

theorem survivors_room {buf : Bytes} {pos : Nat} {nameIndex : UInt8} {suffix : Bytes}
    (hplaced : WellPlaced buf pos es) (hext : es = [] ∨ pos + neededEntries es ≤ buf.length + 3)
    (hlost : (survivors nameIndex suffix es).length ≠ es.length) :
    neededEntries (survivors nameIndex suffix es) + 4 + neededValues
      (survivors nameIndex suffix es) ≤ buf.length - pos := by
  obtain ⟨pre, e, post, hsplit, hsub⟩ := survivors_sublist hlost
  obtain ⟨hne, hnv⟩ := needed_sublist hsub
  have hroom := hplaced.room
  subst hsplit
  have hpad := e.le_entryPadded
  obtain hnil | hext := hext
  · exact absurd hnil (by simp)
  · rw [neededEntries_append, neededEntries_cons] at hext
    rw [neededEntries_append, neededEntries_cons, neededValues_append, neededValues_cons] at hroom
    rw [neededEntries_append] at hne
    rw [neededValues_append] at hnv
    omega

end Areas

/-- The size a set needs: its entries, the zero word behind them and the values, padded. -/
def neededToSet (nameIndex : UInt8) (suffix value : Bytes) (es : List DecodedEntry) : Nat :=
  neededEntries (assign nameIndex suffix value es).1 + 4 +
    neededValues (assign nameIndex suffix value es).1

/-- The outcome of a set: the suffix is checked, then the room; then the map is updated. -/
def SetsIn (reads : Bytes → (UInt8 × Bytes → Option Bytes) → Prop) (area : Bytes) (capacity : Nat)
    (es : List DecodedEntry) (nameIndex : UInt8) (suffix value : Bytes)
    (result : Option (Result SetOutcome × Bytes)) : Prop :=
  if suffix = [] ∧ nameIndex ≠ 2 ∧ nameIndex ≠ 3 then
    result = some (.error (.invalidArgument "xattr name suffix is empty"), area)
  else if 255 < suffix.length then result = some (.error .nameTooLong, area)
  else if capacity < neededToSet nameIndex suffix value es then
    result = some (.error .noSpaceLeftOnDevice, area)
  else ∃ after, after.length = area.length ∧
    reads after (Function.update (attrs es) (nameIndex, suffix) (some value)) ∧
    result = some (.ok (if (attrs es (nameIndex, suffix)).isSome then .replaced else .inserted),
    after)

def RegionRemoves (region : Bytes) (es : List DecodedEntry) (nameIndex : UInt8) (suffix : Bytes)
    (result : Option (Result RemoveOutcome × Bytes)) : Prop :=
  if attrs es (nameIndex, suffix) = none then result = some (.ok .notFound, region)
  else ∃ after, after.length = region.length ∧
    RegionReads after (Function.update (attrs es) (nameIndex, suffix) none) ∧
    result = some (.ok .removed, after)

/-- The outcome of a removal from a block: when it was the only attribute, the bytes stay and the
caller frees the block. -/
def BlockRemoves (block : Bytes) (es : List DecodedEntry) (nameIndex : UInt8) (suffix : Bytes)
    (result : Option (Result BlockRemoveOutcome × Bytes)) : Prop :=
  if attrs es (nameIndex, suffix) = none then result = some (.ok .notFound, block)
  else if es.length = 1 then result = some (.ok .removedNowEmpty, block)
  else ∃ after, after.length = block.length ∧
    BlockReads after (Function.update (attrs es) (nameIndex, suffix) none) ∧
    result = some (.ok .removed, after)

section Outcomes

variable {region block name suffix : Bytes} {es : List DecodedEntry} {nameIndex : UInt8}

theorem editable_wellFormed {decoded : Result (List DecodedEntry)} (hdec : decoded = .ok es)
    (hes : WellFormedEntries es) : editable decoded = .ok es := by
  have hany : es.any (fun e => e.valueInum != 0) = false := by
    rw [List.any_eq_false]
    intro e he
    simp [hes.inum e he]
  unfold editable refuseIfAnyEaInodeBacked
  rw [hdec]
  simp only [bind, Except.bind, hany, pure, Except.pure]
  rfl

theorem index_ne_zero (hsplit : splitQualifiedName name = some (nameIndex, suffix)) :
    nameIndex ≠ 0 := by
  obtain ⟨front, hfront, -⟩ := splitQualifiedName_eq hsplit
  intro hzero
  have hsome := Option.isSome_of_eq_some hfront
  rw [hzero] at hsome
  exact absurd hsome (by decide)

theorem names_assign {value : Bytes} (hname : ∀ e ∈ es, e.nameBytes.length ≤ 255)
    (hsuffix : suffix.length ≤ 255) :
    ∀ e ∈ (assign nameIndex suffix value es).1, e.nameBytes.length ≤ 255 := by
  induction es with
  | nil =>
    intro e he
    rw [List.mem_singleton.mp he]
    exact hsuffix
  | cons a rest ih =>
    have hrest := ih (fun e he => hname e (List.mem_cons_of_mem _ he))
    have ha := hname a List.mem_cons_self
    rw [assign]
    split
    · intro e he
      obtain rfl | he := List.mem_cons.mp he
      · exact ha
      · exact hname e (List.mem_cons_of_mem _ he)
    · intro e he
      obtain rfl | he := List.mem_cons.mp he
      · exact ha
      · exact hrest e he

theorem le_neededToSet (value : Bytes) : 20 ≤ neededToSet nameIndex suffix value es := by
  unfold neededToSet
  cases es with
  | nil =>
    rw [assign, neededEntries_cons]
    have hpad := DecodedEntry.le_entryPadded ⟨nameIndex, suffix, value, 0⟩
    omega
  | cons a rest =>
    rw [assign]
    split
    · have hpad := DecodedEntry.le_entryPadded { a with value := value }
      rw [neededEntries_cons]
      omega
    · have hpad := a.le_entryPadded
      dsimp only
      rw [neededEntries_cons]
      omega

theorem checkSetName_split (hsplit : splitQualifiedName name = some (nameIndex, suffix)) :
    checkSetName name =
      if suffix = [] ∧ nameIndex ≠ 2 ∧ nameIndex ≠ 3 then
        .error (.invalidArgument "xattr name suffix is empty")
      else if 255 < suffix.length then .error .nameTooLong
      else .ok (nameIndex, suffix) := by
  unfold checkSetName
  rw [hsplit]
  simp only [List.isEmpty_iff, not_or, ne_eq]

theorem planSetInInodeRegion_sets (h : WellFormedRegion region es) (hutf8 : isUtf8 name = true)
    (hsplit : splitQualifiedName name = some (nameIndex, suffix)) (value : Bytes) :
    SetsIn RegionReads region (region.length - 4) es nameIndex suffix value
      (planSetInInodeRegion region name value) := by
  have hdec := editable_wellFormed h.decoded h.entries
  have hneeded : 20 ≤ neededToSet nameIndex suffix value es := le_neededToSet value
  unfold regionEntries at hdec
  unfold SetsIn planSetInInodeRegion
  rw [checkSetName_split hsplit, hdec]
  split
  · rfl
  split
  · rfl
  rename_i _ hsuffix
  have hassigned : WellFormedEntries (assign nameIndex suffix value es).1 :=
    h.entries.assign (fun hz => index_ne_zero hsplit hz.1) (isUtf8_suffix hsplit hutf8)
  have hnames : ∀ e ∈ (assign nameIndex suffix value es).1, e.nameBytes.length ≤ 255 :=
    names_assign h.names (Nat.not_lt.mp hsuffix)
  dsimp only
  split
  · rename_i hbig
    split
    · rfl
    · exact if_pos hbig
  · rename_i hroom
    rw [if_neg (by omega)]
    obtain ⟨after, hencode, hlen, hreads⟩ :=
      encodeInInodeEntries_reads h.length_le hassigned hnames (Nat.not_lt.mp hroom)
    rw [attrs_assign h.entries] at hreads
    refine ⟨after, hlen, hreads, ?_⟩
    rw [← assign_outcome h.entries]
    exact (if_neg hroom).trans (by rw [hencode]; rfl)

theorem planSetInExternalBlock_sets (h : WellFormedBlock block es) (hutf8 : isUtf8 name = true)
    (hsplit : splitQualifiedName name = some (nameIndex, suffix)) (value : Bytes)
      (refcount : UInt32) :
    SetsIn BlockReads block (block.length - 0x20) es nameIndex suffix value
      (planSetInExternalBlock block name value refcount) := by
  have hdec := editable_wellFormed h.decoded h.entries
  have hle := h.le_length
  unfold SetsIn planSetInExternalBlock
  rw [checkSetName_split hsplit, if_pos h.magic, hdec]
  split
  · rfl
  split
  · rfl
  rename_i _ hsuffix
  have hassigned : WellFormedEntries (assign nameIndex suffix value es).1 :=
    h.entries.assign (fun hz => index_ne_zero hsplit hz.1) (isUtf8_suffix hsplit hutf8)
  have hnames : ∀ e ∈ (assign nameIndex suffix value es).1, e.nameBytes.length ≤ 255 :=
    names_assign h.names (Nat.not_lt.mp hsuffix)
  dsimp only
  rw [if_neg (show ¬ block.length < 0x40 by omega)]
  split
  · rename_i hbig
    exact if_pos hbig
  · rename_i hroom
    obtain ⟨after, hencode, hlen, hreads⟩ :=
      encodeExternalBlock_reads refcount hle h.length_le hassigned hnames (Nat.not_lt.mp hroom)
    rw [attrs_assign h.entries] at hreads
    refine ⟨after, hlen, hreads, ?_⟩
    rw [← assign_outcome h.entries]
    exact (if_neg hroom).trans (by rw [hencode]; rfl)

theorem length_survivors_found (hkeys : (es.map (·.key)).Nodup)
    (hfound : attrs es (nameIndex, suffix) ≠ none) :
    (survivors nameIndex suffix es).length + 1 = es.length := by
  obtain ⟨v, hv⟩ := Option.ne_none_iff_exists'.mp hfound
  obtain ⟨e, he, hkey, -⟩ := (attrs_eq_some hkeys).mp hv
  obtain ⟨rfl, rfl⟩ := Prod.mk.inj hkey
  have hfilter : es.filter (fun x => x ≠ e) = es.erase e := by
    rw [(List.Nodup.of_map _ hkeys).erase_eq_filter]
    apply List.filter_congr
    intro x _
    exact decide_not
  rw [survivors_eq_filter hkeys he, hfilter, List.length_erase_of_mem he]
  have hpos := List.length_pos_of_mem he
  omega

theorem planRemoveInInodeRegion_removes (h : WellFormedRegion region es)
    (hsplit : splitQualifiedName name = some (nameIndex, suffix)) :
    RegionRemoves region es nameIndex suffix (planRemoveInInodeRegion region name) := by
  have hdecoded := h.decoded
  unfold regionEntries at hdecoded
  unfold RegionRemoves planRemoveInInodeRegion
  rw [hsplit]
  dsimp only
  by_cases hmagic : region.length < 4 ∨ u32leAt region 0 ≠ xattrMagic
  · -- no entries
    have hnil : es = [] := by
      split at hdecoded
      · rename_i hm
        have hshort : region.length < 4 := hmagic.resolve_right (fun hne => hne hm)
        rw [List.drop_eq_nil_of_le (by omega)] at hdecoded
        exact (Except.ok.inj hdecoded).symm
      · exact (Except.ok.inj hdecoded).symm
    have hnone : attrs [] (nameIndex, suffix) = none := rfl
    rw [if_pos hmagic, hnil, if_pos hnone]
  · have hfour : 4 ≤ region.length := Nat.not_lt.mp (fun hlt => hmagic (.inl hlt))
    rw [if_pos (by_contra fun hne => hmagic (.inr hne))] at hdecoded
    rw [if_neg hmagic, editable_wellFormed hdecoded h.entries]
    dsimp only
    split
    · rename_i hnone
      exact if_pos (length_survivors.mpr hnone)
    · rename_i hfound
      have hlost := fun hsame => hfound (length_survivors.mp hsame)
      have hext := decodeInInodeEntries_extent hdecoded
      rw [← Nat.zero_add (neededEntries es)] at hext
      have hroom := survivors_room h.placed hext hlost
      rw [List.length_drop] at hroom
      have hkept : WellFormedEntries (survivors nameIndex suffix es) :=
        h.entries.sublist List.filter_sublist
      obtain ⟨after, hencode, hlen, hreads⟩ := encodeInInodeEntries_reads h.length_le hkept
        (fun e he => h.names e (List.mem_of_mem_filter he)) hroom
      rw [attrs_survivors h.entries.keys] at hreads
      refine ⟨after, hlen, hreads, ?_⟩
      exact (if_neg hlost).trans (by rw [hencode]; rfl)

theorem planRemoveFromExternalBlock_removes (h : WellFormedBlock block es)
    (hsplit : splitQualifiedName name = some (nameIndex, suffix)) (refcount : UInt32) :
    BlockRemoves block es nameIndex suffix (planRemoveFromExternalBlock block name refcount) := by
  have hle := h.le_length
  have hmagic : ¬ (block.length < 0x20 ∨ u32leAt block 0 ≠ xattrMagic) :=
    fun hor => hor.elim (fun hlt => by omega) (fun hne => hne h.magic)
  unfold BlockRemoves planRemoveFromExternalBlock
  rw [hsplit]
  dsimp only
  rw [if_neg hmagic, editable_wellFormed h.decoded h.entries]
  dsimp only
  split
  · rename_i hnone
    exact if_pos (length_survivors.mpr hnone)
  · rename_i hfound
    have hlost := fun hsame => hfound (length_survivors.mp hsame)
    have hcount := length_survivors_found h.entries.keys hfound
    split
    · rename_i hone
      have hempty : (survivors nameIndex suffix es).isEmpty = true := by
        rw [List.isEmpty_iff, ← List.length_eq_zero_iff]
        omega
      exact if_pos hempty
    · rename_i hmore
      have hkept : ¬ (survivors nameIndex suffix es).isEmpty = true := by
        rw [List.isEmpty_iff, ← List.length_eq_zero_iff]
        omega
      have hwell : WellFormedEntries (survivors nameIndex suffix es) :=
        h.entries.sublist List.filter_sublist
      have hroom := survivors_room h.placed (decodeExternalBlockEntries_extent h.decoded).2 hlost
      obtain ⟨after, hencode, hlen, hreads⟩ := encodeExternalBlock_reads refcount hle
        h.length_le hwell (fun e he => h.names e (List.mem_of_mem_filter he)) hroom
      rw [attrs_survivors h.entries.keys] at hreads
      refine ⟨after, hlen, hreads, ?_⟩
      exact (if_neg hkept).trans (by rw [hencode]; rfl)

end Outcomes

/-- Well-formed areas behave as maps: a set of a suffix that can be stored updates the map unless it
does not fit, a removal takes the key out of it; the area read back is well formed, and in a block
in order and hashed. Every error, and a removal that finds nothing, leaves the bytes. -/
theorem areas_behave_as_maps {region block name suffix : Bytes} {es bs : List DecodedEntry}
    {nameIndex : UInt8} (hregion : WellFormedRegion region es) (hblock : WellFormedBlock block bs)
    (hutf8 : isUtf8 name = true) (hsplit : splitQualifiedName name = some (nameIndex, suffix)) :
    (∀ value, SetsIn RegionReads region (region.length - 4) es nameIndex suffix value
        (planSetInInodeRegion region name value)) ∧
      RegionRemoves region es nameIndex suffix (planRemoveInInodeRegion region name) ∧
      (∀ value refcount, SetsIn BlockReads block (block.length - 0x20) bs nameIndex suffix value
        (planSetInExternalBlock block name value refcount)) ∧
      ∀ refcount, BlockRemoves block bs nameIndex suffix
        (planRemoveFromExternalBlock block name refcount) :=
  ⟨planSetInInodeRegion_sets hregion hutf8 hsplit, planRemoveInInodeRegion_removes hregion hsplit,
    planSetInExternalBlock_sets hblock hutf8 hsplit, planRemoveFromExternalBlock_removes
      hblock hsplit⟩

/-- Two attributes with values, the first one's value behind the second's, and one without. -/
def valuedEntries : List DecodedEntry :=
  [⟨1, [0x61], [1, 2, 3, 4, 5], 0⟩, ⟨1, [0x62, 0x62], [6, 7, 8], 0⟩, ⟨4, [0x63], [], 0⟩]

def valuedTable (first second : UInt8) : Bytes :=
  [1, 1, first, 0, 0, 0, 0, 0, 5, 0, 0, 0, 0, 0, 0, 0, 0x61, 0, 0, 0] ++
    [2, 1, second, 0, 0, 0, 0, 0, 3, 0, 0, 0, 0, 0, 0, 0, 0x62, 0x62, 0, 0] ++
    [1, 4, 0, 0, 0, 0, 0, 0, 0, 0, 0, 0, 0, 0, 0, 0, 0x63, 0, 0, 0]

def valuedBytes : Bytes := [6, 7, 8, 0, 1, 2, 3, 4, 5, 0, 0, 0]

def valuedRegion : Bytes := u32le xattrMagic ++ valuedTable 84 80 ++
    List.replicate 20 0 ++ valuedBytes

def valuedBlock : Bytes := headerBytes 1 0 ++ valuedTable 120 116 ++
    List.replicate 24 0 ++ valuedBytes

theorem valuedEntries_wellFormed : WellFormedEntries valuedEntries where
  keys := by decide
  utf8 := by decide
  named := by decide
  inum := by decide

theorem wellPlaced_valued {buf : Bytes} {pos lo : Nat}
    (hextents : extentsFrom buf valuedEntries pos = [(lo + 4, 8), (lo, 4)])
    (hlo : tableEnd buf.length pos valuedEntries ≤ lo) (hhi : lo + 12 ≤ buf.length) :
    WellPlaced buf pos valuedEntries := by
  refine ⟨?_, ?_⟩
  · intro r hr
    rw [hextents] at hr
    obtain rfl | rfl : r = (lo + 4, 8) ∨ r = (lo, 4) := by simpa using hr
    · exact ⟨by dsimp only; omega, by dsimp only; omega⟩
    · exact ⟨hlo, by dsimp only; omega⟩
  · rw [hextents]
    exact List.pairwise_pair.mpr (.inr (by dsimp only; omega))

theorem valuedRegion_wellFormed : WellFormedRegion valuedRegion valuedEntries where
  length_le := by decide +kernel
  decoded := by decide +kernel
  entries := valuedEntries_wellFormed
  placed := wellPlaced_valued (show _ = [(80 + 4, 8), (80, 4)] by decide +kernel)
    (by decide +kernel)
    (by decide +kernel)

theorem valuedBlock_wellFormed : WellFormedBlock valuedBlock valuedEntries where
  le_length := by decide +kernel
  length_le := by decide +kernel
  magic := by decide +kernel
  decoded := by decide +kernel
  entries := valuedEntries_wellFormed
  placed := wellPlaced_valued (show _ = [(116 + 4, 8), (116, 4)] by decide +kernel)
    (by decide +kernel)
    (by decide +kernel)

/-- Among attributes with values, one takes a longer value and one is taken out, in an inode and in
a block. -/
theorem user_areas_behave_as_maps :
    SetsIn RegionReads valuedRegion 92 valuedEntries 1 [0x61] (List.replicate 9 7)
        (planSetInInodeRegion valuedRegion userA (List.replicate 9 7)) ∧
      RegionRemoves valuedRegion valuedEntries 1 [0x61]
        (planRemoveInInodeRegion valuedRegion userA) ∧
      SetsIn BlockReads valuedBlock 96 valuedEntries 1 [0x61] (List.replicate 9 7)
        (planSetInExternalBlock valuedBlock userA (List.replicate 9 7) 1) ∧
      BlockRemoves valuedBlock valuedEntries 1 [0x61]
        (planRemoveFromExternalBlock valuedBlock userA 1) := by
  obtain ⟨hset, hremove, hset', hremove'⟩ := areas_behave_as_maps valuedRegion_wellFormed
    valuedBlock_wellFormed (show isUtf8 userA = true by decide)
    (show splitQualifiedName userA = some (1, [0x61]) by decide)
  exact ⟨hset (List.replicate 9 7), hremove, hset' (List.replicate 9 7) 1, hremove' 1⟩

def userBlock : Bytes :=
  headerBytes 1 0 ++ ([1, 1, 0, 0] ++
    (List.replicate 12 0 ++ ([0x61, 0, 0, 0] ++ List.replicate 12 0)))

def userEntry : DecodedEntry := ⟨1, [0x61], [], 0⟩

theorem userBlock_wellFormed : WellFormedBlock userBlock [userEntry] where
  le_length := by decide
  length_le := by decide
  magic := by decide
  decoded := by decide
  entries := { keys := by decide, utf8 := by decide, named := by decide, inum := by decide }
  placed := ⟨fun _ hr => absurd hr List.not_mem_nil, .nil⟩

/-- The removal of a block's only attribute leaves it there to be read, and an empty suffix is
refused before the room is looked at. -/
theorem emptied_block_keeps_bytes :
    WellFormedBlock userBlock [userEntry] ∧ splitQualifiedName userA = some (1, [0x61]) ∧
      planRemoveFromExternalBlock userBlock userA 1 = some (.ok .removedNowEmpty, userBlock) ∧
      listBlock userBlock = .ok [⟨userA, [], 0, 0⟩] ∧
      splitQualifiedName (userA.take 5) = some (1, []) ∧
      userBlock.length - 0x20 < neededToSet 1 [] (List.replicate 64 0) [userEntry] ∧
      planSetInExternalBlock userBlock (userA.take 5) (List.replicate 64 0) 1 =
        some (.error (.invalidArgument "xattr name suffix is empty"), userBlock) :=
  ⟨userBlock_wellFormed, by decide, by decide, by decide, by decide,
    by decide, by decide⟩

end FsExt4.Xattr
