import FsExt4.InlineMut

namespace FsExt4

open Lib Xattr

namespace InlineMut

section Area

variable {raw raw' region : Bytes} {inodeSize start stop : Nat}

theorem attrArea_eq_some (h : attrArea raw inodeSize = some (start, stop)) :
    start = 128 + (u16leAt raw 0x80).toNat ∧ stop = min inodeSize raw.length ∧ 129 ≤ start ∧
      start + 8 ≤ stop ∧ stop ≤ raw.length := by
  unfold attrArea at h
  split at h
  · cases h
  dsimp only at h
  split at h
  · rename_i hboth
    obtain ⟨rfl, rfl⟩ := Prod.mk.inj (Option.some.inj h)
    have hpos := hboth.1
    exact ⟨rfl, rfl, by omega, hboth.2, Nat.min_le_right _ _⟩
  · cases h

def inArea (raw : Bytes) (inodeSize i : Nat) : Prop :=
  ∃ start stop, attrArea raw inodeSize = some (start, stop) ∧ start ≤ i ∧ i < stop

theorem attrArea_congr (hlen : raw'.length = raw.length)
    (hextra : u16leAt raw' 0x80 = u16leAt raw 0x80) :
    attrArea raw' inodeSize = attrArea raw inodeSize := by
  unfold attrArea
  rw [hlen, hextra]

theorem inInode_eq (h : attrArea raw inodeSize = some (start, stop)) :
    inInode raw inodeSize = listRegion (slice raw start (stop - start)) := by
  obtain ⟨rfl, rfl, hpos, hroom, hin⟩ := attrArea_eq_some h
  unfold inInode
  dsimp only
  rw [if_neg (by omega)]
  rfl

theorem inInode_of_none (h : attrArea raw inodeSize = none) : inInode raw inodeSize = .ok [] := by
  unfold attrArea at h
  unfold inInode
  dsimp only
  split at h
  · rw [if_pos (by omega)]
  rename_i hlen
  dsimp only at h
  split at h
  · cases h
  rename_i harea
  split
  · rfl
  rename_i hlook
  have hshort : ((slice raw (128 + (u16leAt raw 128).toNat)
      (min inodeSize raw.length - (128 + (u16leAt raw 128).toNat))).drop 4).length < 16 := by
    rw [List.length_drop, length_slice]
    omega
  generalize (slice raw (128 + (u16leAt raw 128).toNat)
    (min inodeSize raw.length - (128 + (u16leAt raw 128).toNat))).drop 4 = area at hshort
  split
  · unfold Xattr.parseEntries
    cases area.length with
    | zero => rfl
    | succ n =>
      rw [Xattr.entriesFrom, if_pos (.inl (by omega))]
      rfl
  · rfl

theorem u16leAt_copyAt_area (h : attrArea raw inodeSize = some (start, stop))
    (hlen : region.length = stop - start) (hfirst : region.getD 0 0 = 0) :
    u16leAt (copyAt raw start region) 0x80 = u16leAt raw 0x80 := by
  obtain ⟨hstart, -, hpos, hroom, hin⟩ := attrArea_eq_some h
  by_cases hedge : start = 129
  · have hextra : u16leAt raw 0x80 = 1 := by
      apply UInt16.toNat_inj.mp
      change (u16leAt raw 0x80).toNat = 1
      omega
    have hbytes := u16le_u16leAt (show 0x80 + 2 ≤ raw.length by omega)
    have hhigh : raw.getD 129 0 = 0 := by
      have hget : (u16le (u16leAt raw 0x80)).getD 1 0 = (slice raw 0x80 2).getD 1
        0 := by rw [hbytes]
      rw [hextra, getD_slice _ _ _ _ (by decide)] at hget
      exact hget.symm
    have hslice : slice (copyAt raw start region) 0x80 2 = slice raw 0x80 2 := by
      have hsame := length_copyAt raw start region (by omega)
      refine ext_getD (by rw [length_slice, length_slice, hsame]) fun i hi => ?_
      rw [length_slice_of_le _ _ _ (by omega)] at hi
      rw [getD_slice _ _ _ _ hi, getD_slice _ _ _ _ hi, getD_copyAt _ _ _ _ (by omega)]
      split
      · obtain rfl : i = 1 := by omega
        rw [hedge, hfirst]
        exact hhigh.symm
      · rfl
    rw [u16leAt, u16leAt, hslice]
  · exact (agreeOn_copyAt raw start region 0x80 0x82 (by omega) (.inl (by omega))).u16leAt 0x80
      (Nat.le_refl _) (Nat.le_refl _)

end Area

/-- An area in form: distinct names, in text and of known namespaces, and values apart. -/
structure FormedArea (region : Bytes) (es : List DecodedEntry) : Prop where
  decoded : regionEntries region = .ok es
  keys : (es.map (·.key)).Nodup
  utf8 : ∀ e ∈ es, isUtf8 e.nameBytes = true
  known : ∀ e ∈ es, (prefixForIndex e.nameIndex).isSome = true
  placed : WellPlaced (region.drop 4) 0 es

/-- An image of an inode whose area, if it has one, is in form and holds these entries. -/
structure InodeAttrs (raw : Bytes) (inodeSize : Nat) (es : List DecodedEntry) : Prop where
  base : inodeBaseSize ≤ raw.length
  size_lt : inodeSize < 2 ^ 16
  formed : ∀ start stop, attrArea raw inodeSize = some (start, stop) →
    FormedArea (slice raw start (stop - start)) es
  absent : attrArea raw inodeSize = none → es = []

/-- The reader's view of an image is of its entries, and the map they make is `map`. -/
def ImageReads (raw : Bytes) (inodeSize : Nat) (map : UInt8 × Bytes → Option Bytes) : Prop :=
  ∃ es xs, InodeAttrs raw inodeSize es ∧ attrs es = map ∧ inInode raw inodeSize = .ok xs ∧
    List.Forall₂ Reports xs es

section Attrs

variable {raw raw' region : Bytes} {inodeSize start stop : Nat} {es : List DecodedEntry}

theorem FormedArea.wellFormed (h : FormedArea region es) (hlen : region.length ≤ 65536)
    (hinum : ∀ e ∈ es, e.valueInum = 0) : WellFormedRegion region es := by
  refine ⟨hlen, h.decoded, ⟨h.keys, h.utf8, ?_, hinum⟩, h.placed⟩
  rintro e he ⟨hzero, -⟩
  have hknown := h.known e he
  rw [hzero] at hknown
  exact absurd hknown (by decide)

theorem InodeAttrs.region_length (h : InodeAttrs raw inodeSize es)
    (harea : attrArea raw inodeSize = some (start, stop)) :
    (slice raw start (stop - start)).length = stop - start ∧ stop - start ≤ 65536 := by
  obtain ⟨-, hstop, -, hroom, hin⟩ := attrArea_eq_some harea
  have hlt := h.size_lt
  rw [length_slice_of_le _ _ _ (by omega)]
  omega

theorem InodeAttrs.of_area (harea : attrArea raw inodeSize = some (start, stop))
    (hsize : inodeSize < 2 ^ 16)
    (hformed : FormedArea (slice raw start (stop - start)) es) : InodeAttrs raw inodeSize es := by
  obtain ⟨-, -, hpos, hroom, hin⟩ := attrArea_eq_some harea
  have hbase : inodeBaseSize ≤ raw.length := by
    change 128 ≤ raw.length
    omega
  refine ⟨hbase, hsize, fun start' stop' harea' => ?_, fun hnone => ?_⟩
  · obtain ⟨rfl, rfl⟩ := Prod.mk.inj (Option.some.inj (harea.symm.trans harea'))
    exact hformed
  · rw [harea] at hnone
    cases hnone

theorem ImageReads.of_region {map : UInt8 × Bytes → Option Bytes}
    (harea : attrArea raw inodeSize = some (start, stop)) (hsize : inodeSize < 2 ^ 16)
    (hreads : RegionReads (slice raw start (stop - start)) map)
    (hknown : ∀ key v, map key = some v → (prefixForIndex key.1).isSome = true) :
    ImageReads raw inodeSize map := by
  obtain ⟨es, xs, hwell, rfl, hlist, hall⟩ := hreads
  refine ⟨es, xs, .of_area harea hsize ?_, rfl, ?_, hall⟩
  · refine ⟨hwell.decoded, hwell.entries.keys, hwell.entries.utf8, fun e he => ?_, hwell.placed⟩
    exact hknown e.key e.value ((attrs_eq_some hwell.entries.keys).mpr ⟨e, he, rfl, rfl⟩)
  · rw [inInode_eq harea, hlist]

theorem InodeAttrs.reads (h : InodeAttrs raw inodeSize es) : ImageReads raw inodeSize
    (attrs es) := by
  cases harea : attrArea raw inodeSize with
  | none =>
    obtain rfl := h.absent harea
    exact ⟨[], [], h, rfl, inInode_of_none harea, .nil⟩
  | some area =>
    obtain ⟨start, stop⟩ := area
    have hformed := h.formed start stop harea
    have hdec := hformed.decoded
    have hlist : ∃ xs, listRegion (slice raw start (stop - start)) = .ok xs ∧
        List.Forall₂ Reports xs es := by
      unfold regionEntries at hdec
      unfold listRegion
      split at hdec
      · rename_i hmagic
        rw [if_pos hmagic]
        exact entriesFrom_of_decodeFrom hdec hformed.utf8
      · rename_i hmagic
        rw [if_neg hmagic]
        obtain rfl := Except.ok.inj hdec
        exact ⟨[], rfl, .nil⟩
    obtain ⟨xs, hxs, hall⟩ := hlist
    exact ⟨es, xs, h, rfl, (inInode_eq harea).trans hxs, hall⟩

theorem ImageReads.of_frame {field : Nat → Prop} {map : UInt8 × Bytes → Option Bytes}
    (h : ImageReads raw inodeSize map) (hframe : SameOutside field raw raw')
    (hextra : ∀ i, 0x80 ≤ i → i < 0x82 → ¬ field i) (harea : ∀ i, inArea raw inodeSize i →
    ¬ field i) :
    ImageReads raw' inodeSize map := by
  have hword : u16leAt raw' 0x80 = u16leAt raw 0x80 := by
    rw [u16leAt, u16leAt, hframe.slice_eq hextra]
  have hsame : attrArea raw' inodeSize = attrArea raw inodeSize := attrArea_congr hframe.1 hword
  have hkeep : ∀ {start stop : Nat}, attrArea raw inodeSize = some (start, stop) →
      slice raw' start (stop - start) = slice raw start (stop - start) :=
    fun {start stop} hsome => hframe.slice_eq
      (fun i hlow hhigh => harea i ⟨start, stop, hsome, hlow, by omega⟩)
  obtain ⟨es, xs, hattrs, hmap, hread, hall⟩ := h
  refine ⟨es, xs, ⟨hframe.1 ▸ hattrs.base, hattrs.size_lt, ?_, ?_⟩, hmap, ?_, hall⟩
  · intro start stop hsome
    rw [hsame] at hsome
    rw [hkeep hsome]
    exact hattrs.formed start stop hsome
  · rw [hsame]
    exact hattrs.absent
  · cases hsome : attrArea raw inodeSize with
    | none => rw [inInode_of_none (hsame.trans hsome), ← hread, inInode_of_none hsome]
    | some area =>
      obtain ⟨start, stop⟩ := area
      rw [inInode_eq (hsame.trans hsome), hkeep hsome, ← inInode_eq hsome, hread]

theorem ImageReads.of_sameOutside {field : Nat → Prop} {map : UInt8 × Bytes → Option Bytes}
    (h : ImageReads raw inodeSize map) (hframe : SameOutside field raw raw')
    (hfront : ∀ i, field i → i < 0x80) : ImageReads raw' inodeSize map := by
  refine h.of_frame hframe (fun i hlow _ hfield => absurd (hfront i hfield) (by omega)) ?_
  rintro i ⟨start, stop, hsome, hlow, -⟩ hfield
  have hpos := (attrArea_eq_some hsome).2.2.1
  have := hfront i hfield
  omega

end Attrs

end InlineMut

namespace InlineMut

def dataKey : UInt8 × Bytes := (7, [0x64, 0x61, 0x74, 0x61])

theorem split_systemData : splitQualifiedName systemData = some dataKey := by decide

theorem isUtf8_systemData : isUtf8 systemData = true := by decide +kernel

theorem qualifiedName_eq_systemData {e : DecodedEntry}
    (hknown : (prefixForIndex e.nameIndex).isSome = true) :
    e.qualifiedName = systemData ↔ e.key = dataKey := by
  obtain ⟨nameIndex, nameBytes, value, valueInum⟩ := e
  obtain ⟨front, hfront⟩ := Option.isSome_iff_exists.mp hknown
  have hmem := mem_namePrefixes.mp hfront
  have hidx : nameIndex = UInt8.ofNat nameIndex.toNat := by simp
  unfold DecodedEntry.qualifiedName DecodedEntry.key
  dsimp only at hfront hmem ⊢
  rw [hfront, Option.getD_some]
  generalize nameIndex.toNat = n at hmem hidx
  subst hidx
  simp only [namePrefixes, List.mem_cons, Prod.mk.injEq, List.not_mem_nil, or_false] at hmem
  rcases hmem with ⟨rfl, rfl⟩ | ⟨rfl, rfl⟩ | ⟨rfl, rfl⟩ | ⟨rfl, rfl⟩ | ⟨rfl, rfl⟩ | ⟨rfl, rfl⟩ |
    ⟨rfl, rfl⟩ | ⟨rfl, rfl⟩ <;>
    simp [systemData, dataKey]

theorem find_systemData {xs : List XattrEntry} {es : List DecodedEntry}
    (hall : List.Forall₂ Reports xs es)
    (hknown : ∀ e ∈ es, (prefixForIndex e.nameIndex).isSome = true) :
    (xs.find? (fun x => x.name == systemData)).map (·.value) = attrs es dataKey := by
  unfold attrs
  induction hall with
  | nil => rfl
  | @cons x e xs es hx hall ih =>
    have hkey := qualifiedName_eq_systemData (hknown e List.mem_cons_self)
    rw [← hx.name] at hkey
    rw [List.find?_cons, List.find?_cons]
    by_cases hname : x.name = systemData
    · rw [beq_iff_eq.mpr hname, beq_iff_eq.mpr (hkey.mp hname)]
      exact congrArg some hx.value
    · rw [beq_eq_false_iff_ne.mpr hname, beq_eq_false_iff_ne.mpr (fun h => hname (hkey.mpr h))]
      exact ih (fun y hy => hknown y (List.mem_cons_of_mem _ hy))

def AclReads (d : Disk) (fileAcl blockSize : Nat) : Prop :=
  fileAcl = 0 ∨ ∃ buf outer, (readAt (fileAcl * blockSize) blockSize).exec d = (.ok buf, d) ∧
    u32leAt buf 0 = xattrMagic ∧ parseEntriesBlock buf = .ok outer

theorem exec_get_systemData {d : Disk} {inode : Inode} {raw value : Bytes}
    {inodeSize blockSize : Nat}
    {map : UInt8 × Bytes → Option Bytes} (h : ImageReads raw inodeSize map)
    (hacl : AclReads d inode.fileAcl blockSize) (hvalue : map dataKey = some value) :
    (Xattr.get inode raw inodeSize blockSize systemData).exec d = (.ok (some value), d) := by
  obtain ⟨es, xs, hattrs, rfl, hread, hall⟩ := h
  have hknown : ∀ e ∈ es, (prefixForIndex e.nameIndex).isSome = true := by
    cases harea : attrArea raw inodeSize with
    | none =>
      rw [hattrs.absent harea]
      exact fun e he => absurd he List.not_mem_nil
    | some area => exact (hattrs.formed area.1 area.2 harea).known
  have hfind := find_systemData hall hknown
  rw [hvalue] at hfind
  have hinner : ∀ outer : List XattrEntry,
      ((xs ++ outer).find? (fun e => e.name == systemData)).map XattrEntry.value = some value := by
    intro outer
    obtain ⟨x, hx, hxv⟩ := Option.map_eq_some_iff.mp hfind
    rw [List.find?_append, hx, Option.some_or, Option.map_some, hxv]
  have hall : ∃ outer, (Xattr.readAll inode raw inodeSize blockSize).exec d =
      (.ok (xs ++ outer), d) := by
    unfold Xattr.readAll
    rw [Io.exec_bind_ok _ _ _ _ _ (show (liftM (inInode raw inodeSize) : DevIo _).exec d =
        (.ok xs, d) by
      rw [Io.exec_liftM, hread])]
    obtain hzero | ⟨buf, outer, hbuf, hmagic, houter⟩ := hacl
    · rw [if_pos hzero]
      exact ⟨[], by rw [List.append_nil]; rfl⟩
    · split
      · exact ⟨[], by rw [List.append_nil]; rfl⟩
      · refine ⟨outer, ?_⟩
        rw [Io.exec_bind_ok _ _ _ _ _ hbuf, if_neg (not_not.mpr hmagic),
          Io.exec_bind_ok _ _ _ _ _ (show (liftM (parseEntriesBlock buf) : DevIo _).exec d =
            (.ok outer, d) by
            rw [Io.exec_liftM, houter])]
        rfl
  obtain ⟨outer, houter⟩ := hall
  unfold Xattr.get
  rw [Io.exec_bind_ok _ _ _ _ _ houter, hinner outer]
  rfl

end InlineMut

namespace InlineMut

section Edits

variable {raw region bytes name value : Bytes} {inodeSize start stop : Nat} {es : List DecodedEntry}

theorem first_of_encode {fs : List DecodedEntry} (h : encodeInInodeEntries region fs = some bytes) :
    bytes.getD 0 0 = 0 := by
  unfold encodeInInodeEntries at h
  obtain ⟨buf, -, rfl⟩ := Option.map_eq_some_iff.mp h
  rfl

theorem set_done {outcome : SetOutcome} (hdec : regionEntries region = .ok es)
    (h : planSetInInodeRegion region name value = some (.ok outcome, bytes)) :
    (∀ e ∈ es, e.valueInum = 0) ∧ bytes.getD 0 0 = 0 := by
  unfold regionEntries at hdec
  unfold planSetInInodeRegion at h
  split at h
  · cases h
  split at h
  · cases h
  rw [hdec] at h
  cases hed : editable (.ok es) with
  | error e =>
    rw [hed] at h
    cases h
  | ok entries =>
    rw [hed] at h
    dsimp only at h
    split at h
    · cases h
    · obtain ⟨bytes', hencode, heq⟩ := Option.map_eq_some_iff.mp h
      obtain ⟨-, rfl⟩ := Prod.mk.inj heq
      obtain ⟨hsame, hinum⟩ := editable_ok hed
      exact ⟨Except.ok.inj hsame ▸ hinum, first_of_encode hencode⟩

theorem prefix_update {value : Option Bytes} {attrs : UInt8 × Bytes → Option Bytes}
    (h : ∀ key v, attrs key = some v → (prefixForIndex key.1).isSome = true)
      (key : UInt8 × Bytes) (v : Bytes)
    (hkey : Function.update attrs dataKey value key = some v) :
      (prefixForIndex key.1).isSome = true := by
  rw [Function.update_apply] at hkey
  split at hkey
  · rename_i heq
    rw [heq]
    decide
  · exact h key v hkey

theorem FormedArea.prefix_attrs (h : FormedArea region es) (key : UInt8 × Bytes) (v : Bytes)
    (hkey : attrs es key = some v) : (prefixForIndex key.1).isSome = true := by
  obtain ⟨e, he, rfl, -⟩ := (attrs_eq_some h.keys).mp hkey
  exact h.known e he

theorem ImageReads.put {map : UInt8 × Bytes → Option Bytes} (h : InodeAttrs raw inodeSize es)
    (harea : attrArea raw inodeSize = some (start, stop)) (hlen : region.length = stop - start)
    (hfirst : region.getD 0 0 = 0) (hreads : RegionReads region map)
    (hknown : ∀ key v, map key = some v → (prefixForIndex key.1).isSome = true) :
    ImageReads (copyAt raw start region) inodeSize map := by
  obtain ⟨-, -, -, hroom, hin⟩ := attrArea_eq_some harea
  have hsame := length_copyAt raw start region (by omega)
  have hextra := u16leAt_copyAt_area harea hlen hfirst
  refine .of_region ((attrArea_congr hsame hextra).trans harea) h.size_lt ?_ hknown
  rw [← hlen, slice_copyAt_self raw start region (by omega)]
  exact hreads

theorem set_image {outcome : SetOutcome} (h : InodeAttrs raw inodeSize es)
    (harea : attrArea raw inodeSize = some (start, stop))
    (hset : planSetInInodeRegion (slice raw start (stop - start)) systemData value =
      some (.ok outcome, region)) :
    region.length = stop - start ∧
      ImageReads (copyAt raw start region) inodeSize
        (Function.update (attrs es) dataKey (some value)) := by
  have hformed := h.formed start stop harea
  obtain ⟨hlen, hmax⟩ := h.region_length harea
  obtain ⟨hinum, hfirst⟩ := set_done hformed.decoded hset
  have hsets := planSetInInodeRegion_sets (hformed.wellFormed (by omega) hinum) isUtf8_systemData
    split_systemData value
  rw [hset] at hsets
  unfold SetsIn at hsets
  rw [if_neg (by decide), if_neg (by decide)] at hsets
  split at hsets
  · cases hsets
  obtain ⟨after, hafter, hreads, heq⟩ := hsets
  obtain ⟨-, rfl⟩ := Prod.mk.inj (Option.some.inj heq)
  have hregion := hafter.trans hlen
  exact ⟨hregion, .put h harea hregion hfirst hreads (prefix_update hformed.prefix_attrs)⟩

theorem remove_image (h : InodeAttrs raw inodeSize es)
    (harea : attrArea raw inodeSize = some (start, stop)) :
    ∃ result region, planRemoveInInodeRegion (slice raw start (stop - start)) systemData =
        some (result, region) ∧ region.length = stop - start ∧
      u16leAt (copyAt raw start region) 0x80 = u16leAt raw 0x80 ∧
      (∀ e, result = .error e → copyAt raw start region = raw) ∧
      ∀ outcome, result = .ok outcome →
        ImageReads (copyAt raw start region) inodeSize
          (Function.update (attrs es) dataKey none) := by
  have hformed := h.formed start stop harea
  obtain ⟨hlen, hmax⟩ := h.region_length harea
  obtain ⟨-, -, -, hroom, hin⟩ := attrArea_eq_some harea
  have hself : copyAt raw start (slice raw start (stop - start)) = raw := by
    have hfit : start + (slice raw start (stop - start)).length ≤ raw.length := by omega
    refine ext_getD (length_copyAt raw start _ hfit) fun i _ => ?_
    rw [getD_copyAt _ _ _ _ hfit]
    split
    · rw [getD_slice _ _ _ _ (by omega)]
      congr 1
      omega
    · rfl
  have hnone : attrs es dataKey = none → Function.update (attrs es) dataKey none = attrs es := by
    intro habsent
    rw [← habsent, Function.update_eq_self]
  by_cases hinum : ∀ e ∈ es, e.valueInum = 0
  · have hremoves := planRemoveInInodeRegion_removes (hformed.wellFormed (by omega) hinum)
      split_systemData
    unfold RegionRemoves at hremoves
    split at hremoves
    · rename_i habsent
      refine ⟨_, _, hremoves, hlen, by rw [hself], fun e he => (by cases he), fun outcome _ => ?_⟩
      rw [hself, hnone habsent]
      exact h.reads
    · obtain ⟨after, hafter, hreads, heq⟩ := hremoves
      have hregion := hafter.trans hlen
      have hfirst : after.getD 0 0 = 0 := by
        have hplan := heq
        unfold planRemoveInInodeRegion at hplan
        rw [split_systemData] at hplan
        dsimp only [dataKey] at hplan
        split at hplan
        · cases hplan
        split at hplan
        · cases hplan
        split at hplan
        · cases hplan
        obtain ⟨bytes', hencode, hsame⟩ := Option.map_eq_some_iff.mp hplan
        obtain ⟨-, rfl⟩ := Prod.mk.inj hsame
        exact first_of_encode hencode
      exact ⟨_, _, heq, hregion, u16leAt_copyAt_area harea hregion hfirst, fun e he =>
        (by cases he),
        fun outcome _ => .put h harea hregion hfirst hreads (prefix_update hformed.prefix_attrs)⟩
  · -- a value in another inode refuses the edit
    have hdec := hformed.decoded
    unfold regionEntries at hdec
    split at hdec
    · rename_i hmagic
      have hany : es.any (fun e => e.valueInum != 0) = true := by
        rw [List.any_eq_true]
        by_contra hall
        exact hinum fun e he => by_contra fun hne => hall ⟨e, he, bne_iff_ne.mpr hne⟩
      have hed : editable (.ok es) = .error (.unsupported eaInodeRefusal) := by
        unfold editable refuseIfAnyEaInodeBacked
        simp only [bind, Except.bind, hany, if_true]
      refine ⟨.error (.unsupported eaInodeRefusal), _, ?_, hlen, by rw [hself], fun e _ => hself,
        fun outcome ho => (by cases ho)⟩
      unfold planRemoveInInodeRegion
      rw [split_systemData]
      dsimp only [dataKey]
      rw [if_neg (fun hor => hor.elim (fun hlt => by omega) (fun hne => hne hmagic)), hdec, hed]
    · obtain rfl := Except.ok.inj hdec
      exact absurd (fun e he => absurd he List.not_mem_nil) hinum

end Edits

end InlineMut

namespace InlineMut

section Fields

variable {raw raw' : Bytes}

theorem fields_of_frame {field : Nat → Prop} (hframe : SameOutside field raw raw')
    (hfield : ∀ i, field i → Seal.cell 0x04 4 i ∨ Seal.cell 0x20 4 i ∨ Seal.cell 0x28 60 i ∨
      Seal.cell 0x6C 4 i ∨ 0x78 ≤ i) :
    Inode.fields raw' = { Inode.fields raw with
      size := join32 (u32leAt raw' 0x6C).toNat (u32leAt raw' 0x04).toNat
      flags := u32leAt raw' 0x20
      block := slice raw' 0x28 60 } := by
  have hkeep : ∀ {o n : Nat}, (∀ i, o ≤ i → i < o + n → ¬ (Seal.cell 0x04 4 i ∨ Seal.cell 0x20 4 i ∨
      Seal.cell 0x28 60 i ∨ Seal.cell 0x6C 4 i ∨ 0x78 ≤ i)) → slice raw' o n = slice raw o n :=
    fun h => hframe.slice_eq (fun i hlow hhigh hi => h i hlow hhigh (hfield i hi))
  unfold Seal.cell at hkeep
  unfold Inode.fields
  simp only [Inode.mk.injEq, u16leAt, u32leAt, true_and]
  refine ⟨?_, ?_, ?_, ?_, ?_⟩
  · rw [hkeep (by omega)]
  · rw [hkeep (by omega)]
  · rw [hkeep (by omega), hkeep (o := 0x1C) (by omega)]
  · rw [hkeep (by omega)]
  · rw [hkeep (by omega), hkeep (o := 0x68) (by omega)]

theorem sameOutside_setSize (hlen : inodeBaseSize ≤ raw.length) (size : Nat) :
    SameOutside (fun i => Seal.cell 0x04 4 i ∨ Seal.cell 0x6C 4 i) raw (setSize raw size) := by
  have h128 : 128 ≤ raw.length := hlen
  have hfirst : SameOutside (fun i => Seal.cell 0x04 4 i ∨ Seal.cell 0x6C 4 i) raw
      (copyAt raw 0x04 (u32le (UInt32.ofNat (size % 2 ^ 32)))) :=
    sameOutside_copyAt (by rw [length_u32le]; omega) (fun i hlow hhigh => .inl ⟨hlow, hhigh⟩)
  exact hfirst.trans (sameOutside_copyAt (by rw [length_u32le, hfirst.1]; omega)
    (fun i hlow hhigh => .inr ⟨hlow, hhigh⟩))

theorem size_setSize (hlen : inodeBaseSize ≤ raw.length) {size : Nat} (hsize : size < 2 ^ 64) :
    join32 (u32leAt (setSize raw size) 0x6C).toNat (u32leAt (setSize raw size) 0x04).toNat =
      size := by
  have h128 : 128 ≤ raw.length := hlen
  have hmid := length_copyAt raw 0x04 (u32le (UInt32.ofNat (size % 2 ^ 32)))
    (by rw [length_u32le]; omega)
  have hlow : u32leAt (setSize raw size) 0x04 = UInt32.ofNat (size % 2 ^ 32) := by
    unfold setSize
    rw [u32leAt, slice_copyAt_disjoint _ _ _ _ _ (by omega) (.inl (by decide)), ← u32leAt,
      u32leAt_copyAt _ _ _ (by omega)]
  rw [hlow]
  unfold setSize
  rw [u32leAt_copyAt _ _ _ (by omega)]
  exact join32_ofNat hsize

theorem length_zeroIBlock (hlen : inodeBaseSize ≤ raw.length) : (zeroIBlock raw).length =
    raw.length := by
  have h128 : 128 ≤ raw.length := hlen
  exact length_copyAt raw 0x28 _ (by rw [List.length_replicate]; omega)

theorem parses_of_frame {field : Nat → Prop} (h : Inode.Parses raw)
    (hframe : SameOutside field raw raw')
    (hextra : u16leAt raw' 0x80 = u16leAt raw 0x80) : Inode.Parses raw' := by
  refine ⟨hframe.1 ▸ h.base, ?_⟩
  rw [hframe.1, hextra]
  exact h.extra

end Fields

end InlineMut

namespace InlineMut

/-- What a store leaves, and what the reader finds there under the length of the data. -/
structure Stored (raw : Bytes) (inodeSize : Nat) (es : List DecodedEntry)
    (data after : Bytes) : Prop where
  frame : SameOutside (fun i => Seal.cell 0x28 60 i ∨ inArea raw inodeSize i) raw after
  reads : ImageReads after inodeSize
    (Function.update (attrs es) dataKey (some (data.drop iBlockLen)))
  parsed : Inode.parse (setSize after data.length) = .ok { Inode.fields raw with
    size := data.length
    block := data.take iBlockLen ++ List.replicate (iBlockLen - data.length) 0 }

structure Stripped (raw : Bytes) (inodeSize : Nat) (es : List DecodedEntry)
    (after : Bytes) : Prop where
  frame : SameOutside (fun i => Seal.cell 0x20 4 i ∨ Seal.cell 0x28 60 i ∨
    inArea raw inodeSize i) raw after
  reads : ImageReads after inodeSize (Function.update (attrs es) dataKey none)
  fields : Inode.fields after = { Inode.fields raw with
    flags := (Inode.fields raw).flags &&& ~~~inodeFlagInlineData
    block := List.replicate 60 0 }

section Results

variable {raw region after : Bytes} {inodeSize start stop : Nat} {es : List DecodedEntry}

theorem sameOutside_area (harea : attrArea raw inodeSize = some (start, stop))
    (hlen : region.length = stop - start) :
    SameOutside (inArea raw inodeSize) raw (copyAt raw start region) := by
  obtain ⟨-, -, -, hroom, hin⟩ := attrArea_eq_some harea
  exact sameOutside_copyAt (by omega) (fun i hlow hhigh => ⟨start, stop, harea, hlow, by omega⟩)

theorem le_of_inArea {i : Nat} (h : inArea raw inodeSize i) : 0x81 ≤ i := by
  obtain ⟨start, stop, harea, hlow, -⟩ := h
  have hpos := (attrArea_eq_some harea).2.2.1
  omega

theorem store_cases (h : InodeAttrs raw inodeSize es) (data : Bytes) :
    (∃ e, store raw inodeSize data = some (.error e, raw)) ∨
      ∃ start stop region, attrArea raw inodeSize = some (start, stop) ∧ region.length =
        stop - start ∧
        ImageReads (copyAt raw start region) inodeSize
          (Function.update (attrs es) dataKey (some (data.drop iBlockLen))) ∧
        data.length ≤ ceiling inodeSize ∧
        store raw inodeSize data =
          some (.ok (), copyAt (zeroIBlock (copyAt raw start region)) 0x28
            (data.take iBlockLen)) := by
  have hdrop : data.drop (min data.length iBlockLen) = data.drop iBlockLen := by
    obtain hle | hle := Nat.le_total data.length iBlockLen
    · rw [Nat.min_eq_left hle, List.drop_length, List.drop_eq_nil_of_le hle]
    · rw [Nat.min_eq_right hle]
  have htake : data.take (min data.length iBlockLen) = data.take iBlockLen := by
    rw [List.take_eq_take_iff]
    omega
  unfold store
  dsimp only
  rw [hdrop, htake]
  split
  · exact .inl ⟨_, rfl⟩
  rename_i hceiling
  cases harea : attrArea raw inodeSize with
  | none => exact .inl ⟨_, rfl⟩
  | some area =>
    obtain ⟨start, stop⟩ := area
    dsimp only
    cases hset : planSetInInodeRegion (slice raw start (stop - start)) systemData
      (data.drop iBlockLen) with
    | none =>
      have hsome := planSetInInodeRegion_isSome (slice raw start (stop - start)) systemData
        (data.drop iBlockLen)
      rw [hset] at hsome
      cases hsome
    | some pair =>
      obtain ⟨result, region⟩ := pair
      cases result with
      | error e => exact .inl ⟨e, rfl⟩
      | ok outcome =>
        obtain ⟨hlen, hreads⟩ := set_image h harea hset
        exact .inr ⟨start, stop, region, rfl, hlen, hreads, Nat.le_of_not_lt hceiling, rfl⟩

theorem slice_iBlock {b data : Bytes} (hlen : inodeBaseSize ≤ b.length) :
    slice (copyAt (zeroIBlock b) 0x28 (data.take iBlockLen)) 0x28 60 =
      data.take iBlockLen ++ List.replicate (iBlockLen - data.length) 0 := by
  have h128 : 128 ≤ b.length := hlen
  have hzero := length_zeroIBlock hlen
  have hsixty : iBlockLen = 60 := rfl
  have hhead : (data.take iBlockLen).length = min 60 data.length := by rw [List.length_take, hsixty]
  have hfit : 0x28 + (data.take iBlockLen).length ≤ (zeroIBlock b).length := by omega
  have hsame := length_copyAt (zeroIBlock b) 0x28 (data.take iBlockLen) hfit
  have hlength : (slice (copyAt (zeroIBlock b) 0x28 (data.take iBlockLen)) 0x28 60).length =
      (data.take iBlockLen ++ List.replicate (iBlockLen - data.length) 0).length := by
    rw [length_slice_of_le _ _ _ (by omega), List.length_append, hhead, List.length_replicate]
    omega
  refine ext_getD hlength fun i hi => ?_
  rw [length_slice_of_le _ _ _ (by omega)] at hi
  rw [getD_slice _ _ _ _ hi, getD_copyAt _ _ _ _ hfit]
  have hfill : (zeroIBlock b).getD (0x28 + i) 0 = 0 := by
    unfold zeroIBlock
    rw [getD_copyAt _ _ _ _ (by rw [List.length_replicate]; omega), List.length_replicate,
      if_pos (by omega), List.getD_replicate _ (by omega)]
  split
  · rw [List.getD_append _ _ _ _ (by omega)]
    congr 1
    omega
  · rw [List.getD_append_right _ _ _ _ (by omega), List.getD_replicate _ (by omega), hfill]

theorem ImageReads.parses {map : UInt8 × Bytes → Option Bytes} {key : UInt8 × Bytes} {v : Bytes}
    (h : ImageReads raw inodeSize map) (hkey : map key = some v) : Inode.Parses raw := by
  obtain ⟨es, xs, hattrs, rfl, -, -⟩ := h
  refine ⟨hattrs.base, fun _ => ?_⟩
  cases harea : attrArea raw inodeSize with
  | none =>
    rw [hattrs.absent harea] at hkey
    cases hkey
  | some area =>
    obtain ⟨start, stop⟩ := area
    obtain ⟨hstart, -, -, hroom, hin⟩ := attrArea_eq_some harea
    change 128 + (u16leAt raw 0x80).toNat ≤ raw.length
    omega

theorem parse_setSize {map : UInt8 × Bytes → Option Bytes} {key : UInt8 × Bytes} {v : Bytes}
    {size : Nat}
    (hframe : SameOutside (fun i => Seal.cell 0x28 60 i ∨ inArea raw inodeSize i) raw after)
    (hreads : ImageReads after inodeSize map) (hkey : map key = some v) (hsize : size < 2 ^ 64) :
    Inode.parse (setSize after size) = .ok { Inode.fields raw with
      size := size
      block := slice after 0x28 60 } ∧ ImageReads (setSize after size) inodeSize map := by
  have hbase : inodeBaseSize ≤ after.length := (hreads.parses hkey).base
  have hsized := sameOutside_setSize hbase size
  have hread : ImageReads (setSize after size) inodeSize map :=
    hreads.of_sameOutside hsized (fun i hi => by unfold Seal.cell at hi; omega)
  have hall : SameOutside (fun i => (Seal.cell 0x28 60 i ∨ inArea raw inodeSize i) ∨
      (Seal.cell 0x04 4 i ∨ Seal.cell 0x6C 4 i)) raw (setSize after size) :=
    (hframe.mono (fun _ hi => .inl hi)).trans (hsized.mono (fun _ hi => .inr hi))
  have hflags : u32leAt (setSize after size) 0x20 = u32leAt raw 0x20 := by
    unfold u32leAt
    rw [hall.slice_eq]
    rintro i hlow hhigh ((hi | hi) | hi)
    · unfold Seal.cell at hi
      omega
    · have := le_of_inArea hi
      omega
    · unfold Seal.cell at hi
      omega
  have hblock : slice (setSize after size) 0x28 60 = slice after 0x28 60 :=
    hsized.slice_eq (fun i hlow hhigh hi => by unfold Seal.cell at hi; omega)
  refine ⟨?_, hread⟩
  rw [Inode.parse_eq_ok]
  refine ⟨hread.parses hkey, ?_⟩
  rw [fields_of_frame hall ?_, size_setSize hbase hsize, hflags, hblock]
  · rfl
  · rintro i ((hi | hi) | (hi | hi))
    · exact .inr (.inr (.inl hi))
    · have := le_of_inArea hi
      exact .inr (.inr (.inr (.inr (by omega))))
    · exact .inl hi
    · exact .inr (.inr (.inr (.inl hi)))

theorem Stored.of_region {data : Bytes} (harea : attrArea raw inodeSize = some (start, stop))
    (hlen : region.length = stop - start)
    (hreads : ImageReads (copyAt raw start region) inodeSize
      (Function.update (attrs es) dataKey (some (data.drop iBlockLen))))
    (hdata : data.length < 2 ^ 64) :
    Stored raw inodeSize es data
      (copyAt (zeroIBlock (copyAt raw start region)) 0x28 (data.take iBlockLen)) := by
  obtain ⟨-, -, -, hroom, hin⟩ := attrArea_eq_some harea
  have hbase : inodeBaseSize ≤ (copyAt raw start region).length :=
    (hreads.parses (Function.update_self _ _ _)).base
  have h128 : 128 ≤ (copyAt raw start region).length := hbase
  have hput := sameOutside_area harea hlen
  have hsixty : (data.take iBlockLen).length ≤ 60 := by
    rw [List.length_take]
    exact Nat.min_le_left _ _
  have hblock : SameOutside (Seal.cell 0x28 60) (copyAt raw start region)
      (copyAt (zeroIBlock (copyAt raw start region)) 0x28 (data.take iBlockLen)) := by
    have hzero : SameOutside (Seal.cell 0x28 60) (copyAt raw start region)
        (zeroIBlock (copyAt raw start region)) :=
      sameOutside_copyAt (by rw [List.length_replicate]; omega)
        (fun i hlow hhigh => ⟨hlow, by rw [List.length_replicate] at hhigh; omega⟩)
    exact hzero.trans (sameOutside_copyAt (by rw [hzero.1]; omega)
      (fun i hlow hhigh => ⟨hlow, by omega⟩))
  have hframe : SameOutside (fun i => Seal.cell 0x28 60 i ∨ inArea raw inodeSize i) raw
      (copyAt (zeroIBlock (copyAt raw start region)) 0x28 (data.take iBlockLen)) :=
    (hput.mono (fun _ hi => .inr hi)).trans (hblock.mono (fun _ hi => .inl hi))
  have hafter := hreads.of_sameOutside hblock (fun i hi => by unfold Seal.cell at hi; omega)
  have hparsed := (parse_setSize hframe hafter (Function.update_self _ _ _) hdata).1
  rw [slice_iBlock hbase] at hparsed
  exact ⟨hframe, hafter, hparsed⟩

theorem Stored.readAll {data : Bytes} (h : Stored raw inodeSize es data after)
    (hdata : data.length < 2 ^ 64) {d : Disk} {inode : Inode} {blockSize : Nat}
    (hparse : Inode.parse (setSize after data.length) = .ok inode)
    (hacl : data.length ≤ iBlockLen ∨ AclReads d inode.fileAcl blockSize) :
    (InlineData.readAll inode (setSize after data.length) inodeSize blockSize).exec d =
      (.ok data, d) := by
  obtain rfl := Except.ok.inj (h.parsed.symm.trans hparse)
  have hsixty : iBlockLen = 60 := rfl
  have hread := (parse_setSize h.frame h.reads (Function.update_self _ _ _) hdata).2
  have hblock : (data.take iBlockLen ++ List.replicate (iBlockLen - data.length)
      (0 : UInt8)).length = 60 := by
    rw [List.length_append, List.length_take, List.length_replicate]
    omega
  have hall := @FileIo.exec_readAll _ (setSize after data.length) (data.drop iBlockLen) inodeSize
    blockSize d hblock (fun hlong => ⟨by rw [List.length_drop, hsixty], exec_get_systemData hread
      (hacl.resolve_left (Nat.not_le.mpr hlong)) (Function.update_self _ _ _)⟩)
  rw [hall, FileIo.read_getD _
    (by rw [List.length_append, hblock, List.length_drop]; dsimp only; omega)]
  dsimp only
  have hsplit : slice (data.take iBlockLen ++ List.replicate (iBlockLen - data.length) 0 ++
    data.drop iBlockLen) 0 data.length = data := by
    obtain hle | hle := Nat.le_total data.length iBlockLen
    · rw [List.take_of_length_le hle, List.append_assoc, slice_append_left _ _ _ _ (by omega),
        slice_zero_of_length_le _ _ (Nat.le_refl _)]
    · rw [Nat.sub_eq_zero_of_le hle, List.replicate_zero, List.append_nil, List.take_append_drop,
        slice_zero_of_length_le _ _ (Nat.le_refl _)]
  rw [hsplit]

end Results

end InlineMut

namespace InlineMut

section Strip

variable {raw put : Bytes} {inodeSize : Nat} {es : List DecodedEntry}

theorem ImageReads.base {map : UInt8 × Bytes → Option Bytes} (h : ImageReads raw inodeSize map) :
    inodeBaseSize ≤ raw.length := by
  obtain ⟨es, xs, hattrs, -⟩ := h
  exact hattrs.base

theorem Stripped.of_put (hput : SameOutside (inArea raw inodeSize) raw put)
    (hreads : ImageReads put inodeSize (Function.update (attrs es) dataKey none)) :
    Stripped raw inodeSize es (zeroIBlock (clearInlineFlag put)) := by
  have hbase : inodeBaseSize ≤ put.length := hreads.base
  have h128 : 128 ≤ put.length := hbase
  have hflag : SameOutside (Seal.cell 0x20 4) put (clearInlineFlag put) :=
    sameOutside_copyAt (by rw [length_u32le]; omega) (fun i hlow hhigh => ⟨hlow, hhigh⟩)
  have hzero : SameOutside (Seal.cell 0x28 60) (clearInlineFlag put)
      (zeroIBlock (clearInlineFlag put)) :=
    sameOutside_copyAt (by rw [List.length_replicate, hflag.1]; omega)
      (fun i hlow hhigh => ⟨hlow, by rw [List.length_replicate] at hhigh; omega⟩)
  have hedit : SameOutside (fun i => Seal.cell 0x20 4 i ∨ Seal.cell 0x28 60 i) put
      (zeroIBlock (clearInlineFlag put)) :=
    (hflag.mono (fun _ hi => .inl hi)).trans (hzero.mono (fun _ hi => .inr hi))
  have hframe : SameOutside (fun i => Seal.cell 0x20 4 i ∨ Seal.cell 0x28 60 i ∨
    inArea raw inodeSize i) raw (zeroIBlock (clearInlineFlag put)) :=
    (hput.mono (fun _ hi => .inr (.inr hi))).trans
      (hedit.mono (fun _ hi => hi.elim .inl (fun hi => .inr (.inl hi))))
  refine ⟨hframe, hreads.of_sameOutside hedit (fun i hi => by unfold Seal.cell at hi; omega), ?_⟩
  -- the fields that are not edited
  have hkeep : ∀ {o n : Nat}, o + n ≤ 0x81 → (o + n ≤ 0x20 ∨ 0x64 ≤ o) →
      slice (zeroIBlock (clearInlineFlag put)) o n = slice raw o n := by
    intro o n hend hout
    refine hframe.slice_eq fun i hlow hhigh hi => ?_
    obtain hi | hi | hi := hi
    · unfold Seal.cell at hi
      omega
    · unfold Seal.cell at hi
      omega
    · have := le_of_inArea hi
      omega
  have hflags : u32leAt (zeroIBlock (clearInlineFlag put)) 0x20 =
      (Inode.fields raw).flags &&& ~~~inodeFlagInlineData := by
    have hold : u32leAt put 0x20 = u32leAt raw 0x20 := by
      unfold u32leAt
      rw [hput.slice_eq (fun i hlow hhigh hi => by have := le_of_inArea hi; omega)]
    have hnew : u32leAt (zeroIBlock (clearInlineFlag put)) 0x20 = u32leAt
        (clearInlineFlag put) 0x20 := by
      unfold u32leAt
      rw [hzero.slice_eq (fun i hlow hhigh hi => by unfold Seal.cell at hi; omega)]
    rw [hnew]
    unfold clearInlineFlag
    rw [u32leAt_copyAt _ _ _ (by omega), hold]
    rfl
  have hblock : slice (zeroIBlock (clearInlineFlag put)) 0x28 60 = List.replicate 60 0 := by
    have hself := slice_copyAt_self (clearInlineFlag put) 0x28 (List.replicate 60 0)
      (by rw [List.length_replicate, hflag.1]; omega)
    rw [List.length_replicate] at hself
    exact hself
  have hall := fields_of_frame hframe (by
    rintro i (hi | hi | hi)
    · exact .inr (.inl hi)
    · exact .inr (.inr (.inl hi))
    · have := le_of_inArea hi
      exact .inr (.inr (.inr (.inr (by omega)))))
  rw [hall, hflags, hblock]
  unfold u32leAt
  rw [hkeep (by decide) (by decide), hkeep (by decide) (by decide)]
  rfl

theorem strip_cases (h : InodeAttrs raw inodeSize es) :
    (∃ e, strip raw inodeSize = some (.error e, raw)) ∨
      ∃ after, strip raw inodeSize = some (.ok (), after) ∧ Stripped raw inodeSize es after := by
  have h128 : 128 ≤ raw.length := h.base
  unfold strip
  rw [if_neg (by omega)]
  cases harea : attrArea raw inodeSize with
  | none =>
    have hreads := h.reads
    obtain rfl := h.absent harea
    have hnone : Function.update (attrs []) dataKey none = attrs [] :=
      Function.update_eq_self dataKey (attrs [])
    refine .inr ⟨_, rfl, .of_put (SameOutside.refl _ raw) ?_⟩
    rw [hnone]
    exact hreads
  | some area =>
    obtain ⟨start, stop⟩ := area
    obtain ⟨result, region, hplan, hlen, -, herror, hok⟩ := remove_image h harea
    dsimp only
    rw [hplan]
    cases result with
    | error e =>
      left
      refine ⟨e, ?_⟩
      dsimp only
      rw [herror e rfl]
    | ok outcome => exact .inr ⟨_, rfl, .of_put (sameOutside_area harea hlen) (hok outcome rfl)⟩

theorem strip_ok (h : InodeAttrs raw inodeSize es) (hinum : ∀ e ∈ es, e.valueInum = 0)
    (hparses : Inode.Parses raw) :
    ∃ after, strip raw inodeSize = some (.ok (), after) ∧ Stripped raw inodeSize es after ∧
      Inode.Parses after := by
  have h128 : 128 ≤ raw.length := h.base
  have hedit : ∀ put : Bytes, 128 ≤ put.length →
      u16leAt (zeroIBlock (clearInlineFlag put)) 0x80 = u16leAt put 0x80 := by
    intro put hput
    have hflag := length_copyAt put 0x20 (u32le (u32leAt put 0x20 &&& ~~~inodeFlagInlineData))
      (by rw [length_u32le]; omega)
    unfold zeroIBlock clearInlineFlag u16leAt
    rw [slice_copyAt_disjoint _ _ _ _ _ (by omega) (.inr (by rw [List.length_replicate]; decide)),
      slice_copyAt_disjoint _ _ _ _ _ (by omega) (.inr (by rw [length_u32le]; decide))]
  obtain ⟨e, herror⟩ | ⟨after, hstrip, hstripped⟩ := strip_cases h
  · unfold strip at herror
    rw [if_neg (by omega)] at herror
    cases harea : attrArea raw inodeSize with
    | none =>
      rw [harea] at herror
      cases (Option.some.inj herror)
    | some area =>
      obtain ⟨start, stop⟩ := area
      obtain ⟨hlen, hmax⟩ := h.region_length harea
      have hremoves := planRemoveInInodeRegion_removes
        ((h.formed start stop harea).wellFormed (by omega) hinum) split_systemData
      rw [harea] at herror
      dsimp only at herror
      unfold RegionRemoves at hremoves
      split at hremoves
      · rw [hremoves] at herror
        cases (Option.some.inj herror)
      · obtain ⟨region, -, -, heq⟩ := hremoves
        rw [heq] at herror
        cases (Option.some.inj herror)
  · refine ⟨after, hstrip, hstripped, parses_of_frame hparses hstripped.frame ?_⟩
    unfold strip at hstrip
    rw [if_neg (by omega)] at hstrip
    cases harea : attrArea raw inodeSize with
    | none =>
      rw [harea] at hstrip
      obtain ⟨-, rfl⟩ := Prod.mk.inj (Option.some.inj hstrip)
      exact hedit raw h128
    | some area =>
      obtain ⟨start, stop⟩ := area
      obtain ⟨result, region, hplan, hlen, hextra, -, -⟩ := remove_image h harea
      obtain ⟨-, -, -, hroom, hin⟩ := attrArea_eq_some harea
      rw [harea] at hstrip
      dsimp only at hstrip
      rw [hplan] at hstrip
      cases result with
      | error e => cases (Option.some.inj hstrip)
      | ok outcome =>
        obtain ⟨-, rfl⟩ := Prod.mk.inj (Option.some.inj hstrip)
        rw [hedit _ (by rw [length_copyAt _ _ _ (by omega)]; exact h128), hextra]

end Strip

end InlineMut

namespace Xattr

theorem length_le_neededToSet (nameIndex : UInt8) (suffix value : Bytes) (es : List DecodedEntry) :
    value.length ≤ neededToSet nameIndex suffix value es := by
  unfold neededToSet
  induction es with
  | nil =>
    have hval := DecodedEntry.le_valuePadded ⟨nameIndex, suffix, value, 0⟩
    rw [assign, neededValues_cons]
    dsimp only at hval
    omega
  | cons e rest ih =>
    rw [assign]
    split
    · have hval := DecodedEntry.le_valuePadded { e with value := value }
      rw [neededValues_cons]
      dsimp only at hval
      omega
    · dsimp only
      rw [neededEntries_cons, neededValues_cons]
      omega

theorem neededToSet_mono {nameIndex : UInt8} {suffix value value' : Bytes} (es : List DecodedEntry)
    (h : value.length ≤ value'.length) :
    neededToSet nameIndex suffix value es ≤ neededToSet nameIndex suffix value' es := by
  have hpad : ∀ (idx : UInt8) (name : Bytes) (inum : UInt32),
      (⟨idx, name, value, inum⟩ : DecodedEntry).valuePadded ≤
        (⟨idx, name, value', inum⟩ : DecodedEntry).valuePadded := by
    intro idx name inum
    unfold DecodedEntry.valuePadded
    dsimp only
    omega
  unfold neededToSet
  induction es with
  | nil =>
    have hlast := hpad nameIndex suffix 0
    rw [assign, assign]
    simp only [neededEntries_cons, neededValues_cons]
    exact Nat.add_le_add_left (Nat.add_le_add_right hlast _) _
  | cons e rest ih =>
    rw [assign, assign]
    split
    · have hthis := hpad e.nameIndex e.nameBytes e.valueInum
      simp only [neededEntries_cons, neededValues_cons]
      exact Nat.add_le_add_left (Nat.add_le_add_right hthis _) _
    · dsimp only
      simp only [neededEntries_cons, neededValues_cons]
      omega

end Xattr

namespace InlineMut

section Set

variable {raw : Bytes} {inodeSize start stop : Nat} {es : List DecodedEntry}

theorem set_ok_iff (h : InodeAttrs raw inodeSize es)
    (harea : attrArea raw inodeSize = some (start, stop)) (value : Bytes) :
    (∃ outcome region, planSetInInodeRegion (slice raw start (stop - start)) systemData value =
        some (.ok outcome, region)) ↔
      (∀ e ∈ es, e.valueInum = 0) ∧ neededToSet dataKey.1 dataKey.2 value es ≤
        stop - start - 4 := by
  have hformed := h.formed start stop harea
  obtain ⟨hlen, hmax⟩ := h.region_length harea
  have hsets : (∀ e ∈ es, e.valueInum = 0) → SetsIn RegionReads (slice raw start (stop - start))
      (stop - start - 4) es dataKey.1 dataKey.2 value
      (planSetInInodeRegion (slice raw start (stop - start)) systemData value) := by
    intro hinum
    have hplan := planSetInInodeRegion_sets (hformed.wellFormed (by omega) hinum) isUtf8_systemData
      split_systemData value
    rwa [hlen] at hplan
  constructor
  · rintro ⟨outcome, region, hset⟩
    have hinum := (set_done hformed.decoded hset).1
    refine ⟨hinum, Nat.le_of_not_lt fun hbig => ?_⟩
    have hdone := hsets hinum
    unfold SetsIn at hdone
    rw [if_neg (by decide), if_neg (by decide), if_pos hbig, hset] at hdone
    cases hdone
  · rintro ⟨hinum, hroom⟩
    have hdone := hsets hinum
    unfold SetsIn at hdone
    rw [if_neg (by decide), if_neg (by decide), if_neg (Nat.not_lt.mpr hroom)] at hdone
    obtain ⟨after, -, -, heq⟩ := hdone
    exact ⟨_, _, heq⟩

end Set

end InlineMut

end FsExt4
