import FsExt4.XattrSafety

namespace FsExt4.Xattr

open Lib

/-- Where the value ends up when the values before it reach down to `valueEnd`; 0 for none. -/
def DecodedEntry.offs (e : DecodedEntry) (valueEnd : Nat) : Nat :=
  if e.value.isEmpty then 0 else valueEnd - e.valuePadded

def headBytes (valueOffs : Nat) (hash : Option UInt32) (e : DecodedEntry) : Bytes :=
  ([UInt8.ofNat e.nameBytes.length, e.nameIndex] ++ u16le (UInt16.ofNat valueOffs)) ++
    (List.replicate 4 0 ++ (u32le (UInt32.ofNat e.value.length) ++ u32le (hash.getD 0)))

def entryBytes (valueOffs : Nat) (hash : Option UInt32) (e : DecodedEntry) : Bytes :=
  headBytes valueOffs hash e ++
    (e.nameBytes ++ List.replicate (e.entryPadded - (16 + e.nameBytes.length)) 0)

def paddedValue (e : DecodedEntry) : Bytes :=
  e.value ++ List.replicate (e.valuePadded - e.value.length) 0

def entriesBytes (hash : DecodedEntry → Option UInt32) : List DecodedEntry → Nat → Bytes
  | [], _ => []
  | e :: rest, valueEnd =>
    entryBytes (e.offs valueEnd) (hash e) e ++ entriesBytes hash rest (valueEnd - e.valuePadded)

def valuesBytes : List DecodedEntry → Bytes
  | [] => []
  | e :: rest => valuesBytes rest ++ paddedValue e

@[simp] theorem length_headBytes (valueOffs : Nat) (hash : Option UInt32) (e : DecodedEntry) :
    (headBytes valueOffs hash e).length = 16 := by
  simp [headBytes]

@[simp] theorem length_entryBytes (valueOffs : Nat) (hash : Option UInt32) (e : DecodedEntry) :
    (entryBytes valueOffs hash e).length = e.entryPadded := by
  have hpad := e.le_entryPadded
  simp only [entryBytes, List.length_append, length_headBytes, List.length_replicate]
  omega

@[simp] theorem length_paddedValue (e : DecodedEntry) : (paddedValue e).length = e.valuePadded := by
  have hpad := e.le_valuePadded
  simp only [paddedValue, List.length_append, List.length_replicate]
  omega

@[simp] theorem length_entriesBytes (hash : DecodedEntry → Option UInt32) (es : List DecodedEntry)
    (valueEnd : Nat) : (entriesBytes hash es valueEnd).length = neededEntries es := by
  induction es generalizing valueEnd with
  | nil => rfl
  | cons e rest ih => rw [entriesBytes, List.length_append, length_entryBytes, ih,
      neededEntries_cons]

@[simp] theorem length_valuesBytes (es : List DecodedEntry) :
    (valuesBytes es).length = neededValues es := by
  induction es with
  | nil => rfl
  | cons e rest ih =>
    rw [valuesBytes, List.length_append, length_paddedValue, ih, neededValues_cons, Nat.add_comm]

theorem drop_zeros {n k : Nat} (w : Bytes) (h : k ≤ n) :
    (List.replicate n (0 : UInt8) ++ w).drop k = List.replicate (n - k) 0 ++ w := by
  rw [List.drop_append_of_le_length (by rw [List.length_replicate]; exact h), List.drop_replicate]

theorem copyAt_zeros {a src : Bytes} {off n : Nat} (w : Bytes) (hoff : off = a.length)
    (h : src.length ≤ n) :
    copyAt (a ++ (List.replicate n 0 ++ w)) off src =
      (a ++ src) ++ (List.replicate (n - src.length) 0 ++ w) := by
  rw [copyAt_next hoff, drop_zeros w h]

theorem skip_zeros {n k : Nat} (a w : Bytes) (h : k ≤ n) :
    a ++ (List.replicate n (0 : UInt8) ++ w) =
      (a ++ List.replicate k 0) ++ (List.replicate (n - k) 0 ++ w) := by
  have hsplit : List.replicate n (0 : UInt8) = List.replicate k 0 ++ List.replicate (n - k) 0 := by
    rw [List.replicate_append_replicate]
    congr 1
    omega
  rw [hsplit]
  simp only [List.append_assoc]

theorem writeHeader_eq (a w : Bytes) (n valueOffs : Nat) (hash : Option UInt32) (e : DecodedEntry)
    (h : e.entryPadded ≤ n) :
    writeHeader (a ++ (List.replicate n 0 ++ w)) a.length valueOffs hash e =
      (a ++ entryBytes valueOffs hash e) ++ (List.replicate (n - e.entryPadded) 0 ++ w) := by
  have hpad := e.le_entryPadded
  have hfirst : ([UInt8.ofNat e.nameBytes.length, e.nameIndex] ++ u16le
    (UInt16.ofNat valueOffs)).length = 4 := by simp
  have hfields : copyAt (copyAt (a ++ (List.replicate n 0 ++ w)) a.length
        ([UInt8.ofNat e.nameBytes.length, e.nameIndex] ++ u16le (UInt16.ofNat valueOffs)))
        (a.length + 8) (u32le (UInt32.ofNat e.value.length)) =
      (a ++ ([UInt8.ofNat e.nameBytes.length, e.nameIndex] ++ u16le (UInt16.ofNat valueOffs)) ++
          List.replicate 4 0 ++ u32le (UInt32.ofNat e.value.length)) ++
        (List.replicate (n - 12) 0 ++ w) := by
    rw [copyAt_zeros w rfl (by omega), hfirst, skip_zeros _ w (show 4 ≤ n - 4 by omega),
      copyAt_zeros w (by simp) (by rw [length_u32le]; omega), length_u32le, Nat.sub_sub,
      Nat.sub_sub]
  have hname : copyAt ((a ++ headBytes valueOffs hash e) ++ (List.replicate (n - 16) 0 ++ w))
        (a.length + 16) e.nameBytes =
      (a ++ entryBytes valueOffs hash e) ++ (List.replicate (n - e.entryPadded) 0 ++ w) := by
    rw [copyAt_zeros w (by simp) (by omega), skip_zeros _ w
      (show e.entryPadded - (16 + e.nameBytes.length) ≤ n - 16 - e.nameBytes.length by omega)]
    have hleft : n - 16 - e.nameBytes.length - (e.entryPadded - (16 + e.nameBytes.length)) =
        n - e.entryPadded := by omega
    rw [hleft]
    simp only [entryBytes, List.append_assoc]
  unfold writeHeader
  dsimp only
  rw [hfields, ← hname]
  congr 1
  cases hash with
  | none =>
    dsimp only
    have hzero : u32le 0 = List.replicate 4 (0 : UInt8) := by decide
    rw [skip_zeros _ w (show 4 ≤ n - 12 by omega), Nat.sub_sub]
    simp only [headBytes, Option.getD_none, hzero, List.append_assoc]
  | some v =>
    dsimp only
    rw [copyAt_zeros w (by simp) (by rw [length_u32le]; omega), length_u32le, Nat.sub_sub]
    simp only [headBytes, Option.getD_some, List.append_assoc]

theorem writeEntries_eq (hash : DecodedEntry → Option UInt32) (es : List DecodedEntry) (a w : Bytes)
    (n : Nat) (h : neededEntries es + neededValues es ≤ n) :
    writeEntries hash es (a ++ (List.replicate n 0 ++ w)) a.length (a.length + n) =
      some (a ++ (entriesBytes hash es (a.length + n) ++
        (List.replicate (n - neededEntries es - neededValues es) 0 ++ (valuesBytes es ++ w)))) := by
  induction es generalizing a w n with
  | nil =>
    simp [writeEntries, entriesBytes, valuesBytes]
  | cons e rest ih =>
    have hpad := e.le_entryPadded
    have hval := e.le_valuePadded
    rw [neededEntries_cons, neededValues_cons] at h
    have hlen : (a ++ (List.replicate n 0 ++ w)).length = a.length + n + w.length := by
      simp only [List.length_append, List.length_replicate]
      omega
    -- the value goes to the end of the zeros
    have hvalue : copyAt (a ++ (List.replicate n 0 ++ w)) (a.length + n - e.valuePadded) e.value =
        a ++ (List.replicate (n - e.valuePadded) 0 ++ (paddedValue e ++ w)) := by
      rw [skip_zeros a w (show n - e.valuePadded ≤ n by omega),
        copyAt_zeros w (by simp only [List.length_append, List.length_replicate]; omega) (by omega)]
      have hgap : n - (n - e.valuePadded) - e.value.length =
        e.valuePadded - e.value.length := by omega
      rw [hgap]
      simp only [paddedValue, List.append_assoc]
    rw [writeEntries, if_neg (by omega)]
    dsimp only
    rw [hlen, if_neg (by omega), hvalue, if_neg]
    · rw [writeHeader_eq _ _ _ _ _ _ (by omega)]
      have hentry : a.length + e.entryPadded =
          (a ++ entryBytes (e.offs (a.length + n)) (hash e) e).length := by
        rw [List.length_append, length_entryBytes]
      have hend : a.length + n - e.valuePadded =
          (a ++ entryBytes (e.offs (a.length + n)) (hash e) e).length +
            (n - e.valuePadded - e.entryPadded) := by
        rw [← hentry]
        omega
      rw [hentry, hend]
      have hoffs : (if e.value.isEmpty then 0 else
          (a ++ entryBytes (e.offs (a.length + n)) (hash e) e).length +
            (n - e.valuePadded - e.entryPadded)) = e.offs (a.length + n) := by
        rw [← hend]
        rfl
      rw [hoffs, ih _ _ _ (by omega), ← hend]
      have hgap : n - e.valuePadded - e.entryPadded - neededEntries rest - neededValues rest =
          n - neededEntries (e :: rest) - neededValues (e :: rest) := by
        rw [neededEntries_cons, neededValues_cons]
        omega
      rw [hgap]
      simp only [entriesBytes, valuesBytes, List.append_assoc]
    · simp only [List.length_append, List.length_replicate, length_paddedValue]
      omega

theorem slice_mid {a x b : Bytes} {off n : Nat} (hoff : off = a.length) (hn : n = x.length) :
    slice (a ++ (x ++ b)) off n = x := by
  rw [slice_append_right _ _ _ _ (by omega), slice_append_left _ _ _ _ (by omega), hoff,
    Nat.sub_self, hn]
  exact slice_zero_of_length_le x _ (Nat.le_refl _)

structure EntryAt (buf : Bytes) (pos valueOffs : Nat) (hash : Option UInt32)
    (e : DecodedEntry) : Prop where
  fits : pos + e.entryPadded ≤ buf.length
  nameLen : buf.getD pos 0 = UInt8.ofNat e.nameBytes.length
  nameIndex : buf.getD (pos + 1) 0 = e.nameIndex
  valueOffs : u16leAt buf (pos + 2) = UInt16.ofNat valueOffs
  valueInum : u32leAt buf (pos + 4) = 0
  valueSize : u32leAt buf (pos + 8) = UInt32.ofNat e.value.length
  hash : u32leAt buf (pos + 12) = hash.getD 0
  nameBytes : slice buf (pos + 16) e.nameBytes.length = e.nameBytes

theorem entryAt_entryBytes (a r : Bytes) (valueOffs : Nat) (hash : Option UInt32)
    (e : DecodedEntry) :
    EntryAt (a ++ (entryBytes valueOffs hash e ++ r)) a.length valueOffs hash e := by
  have hpair : slice (a ++ (entryBytes valueOffs hash e ++ r)) a.length 2 =
      [UInt8.ofNat e.nameBytes.length, e.nameIndex] := by
    simp only [entryBytes, headBytes, List.append_assoc]
    exact slice_mid rfl rfl
  refine ⟨?_, ?_, ?_, ?_, ?_, ?_, ?_, ?_⟩
  · simp only [List.length_append, length_entryBytes]
    omega
  · rw [← Nat.add_zero a.length, ← getD_slice _ _ 2 0 (by decide), hpair]
    rfl
  · rw [← getD_slice _ _ 2 1 (by decide), hpair]
    rfl
  · apply u16leAt_of_slice
    simp only [entryBytes, headBytes, List.append_assoc]
    rw [← List.append_assoc a]
    exact slice_mid (by simp) (by simp)
  · apply u32leAt_of_slice
    have hzero : List.replicate 4 (0 : UInt8) = u32le 0 := by decide
    simp only [entryBytes, headBytes, List.append_assoc, hzero]
    rw [← List.append_assoc a, ← List.append_assoc _ (u16le _)]
    exact slice_mid (by simp) (by simp)
  · apply u32leAt_of_slice
    simp only [entryBytes, headBytes, List.append_assoc]
    rw [← List.append_assoc a, ← List.append_assoc _ (u16le _), ← List.append_assoc _
      (List.replicate 4 0)]
    exact slice_mid (by simp) (by simp)
  · apply u32leAt_of_slice
    simp only [entryBytes, headBytes, List.append_assoc]
    rw [← List.append_assoc a, ← List.append_assoc _ (u16le _), ← List.append_assoc _
      (List.replicate 4 0), ← List.append_assoc _ (u32le (UInt32.ofNat e.value.length))]
    exact slice_mid (by simp) (by simp)
  · rw [entryBytes, List.append_assoc, ← List.append_assoc a, List.append_assoc e.nameBytes]
    exact slice_mid (by simp) rfl

/-- The entries are stored one after another from `pos`, their values one below another from
`valueEnd`. -/
def PackedAt (hash : DecodedEntry → Option UInt32) (buf : Bytes) :
    List DecodedEntry → Nat → Nat → Prop
  | [], _, _ => True
  | e :: rest, pos, valueEnd =>
    EntryAt buf pos (e.offs valueEnd) (hash e) e ∧
      (e.valuePadded ≤ valueEnd ∧ valueEnd ≤ buf.length ∧
        slice buf (valueEnd - e.valuePadded) e.value.length = e.value) ∧
      PackedAt hash buf rest (pos + e.entryPadded) (valueEnd - e.valuePadded)

theorem packedAt_entriesBytes (hash : DecodedEntry → Option UInt32) (es : List DecodedEntry)
    (a z w : Bytes) (valueEnd : Nat)
    (hend : valueEnd = a.length + neededEntries es + z.length + neededValues es) :
    PackedAt hash (a ++ (entriesBytes hash es valueEnd ++ (z ++ (valuesBytes es ++ w)))) es
      a.length valueEnd := by
  induction es generalizing a w valueEnd with
  | nil => trivial
  | cons e rest ih =>
    have hval := e.le_valuePadded
    rw [neededEntries_cons, neededValues_cons] at hend
    rw [entriesBytes, valuesBytes, List.append_assoc (entryBytes _ _ _), List.append_assoc
      (valuesBytes rest)]
    refine ⟨entryAt_entryBytes _ _ _ _ _, ⟨by omega, ?_, ?_⟩, ?_⟩
    · simp only [List.length_append, length_entryBytes, length_entriesBytes, length_valuesBytes,
        length_paddedValue]
      omega
    · have hsplit : a ++ (entryBytes (e.offs valueEnd) (hash e) e ++
            (entriesBytes hash rest (valueEnd - e.valuePadded) ++
              (z ++ (valuesBytes rest ++ (paddedValue e ++ w))))) =
          (a ++ (entryBytes (e.offs valueEnd) (hash e) e ++
            (entriesBytes hash rest (valueEnd - e.valuePadded) ++ (z ++ valuesBytes rest)))) ++
          (e.value ++ (List.replicate (e.valuePadded - e.value.length) 0 ++ w)) := by
        simp only [paddedValue, List.append_assoc]
      rw [hsplit]
      apply slice_mid
      · simp only [List.length_append, length_entryBytes, length_entriesBytes, length_valuesBytes]
        omega
      · rfl
    · have hnext := ih (a ++ entryBytes (e.offs valueEnd) (hash e) e) (paddedValue e ++ w)
        (valueEnd - e.valuePadded) (by rw [List.length_append, length_entryBytes]; omega)
      rw [List.length_append, length_entryBytes, List.append_assoc a] at hnext
      exact hnext

/-- What an entry must be for its bytes to be read as it. -/
structure Storable (e : DecodedEntry) : Prop where
  name_le : e.nameBytes.length ≤ 255
  named : ¬ (e.nameIndex = 0 ∧ e.nameBytes = [])
  inum : e.valueInum = 0

theorem EntryAt.header_ne_zero {buf : Bytes} {pos valueOffs : Nat} {hash : Option UInt32}
    {e : DecodedEntry} (h : EntryAt buf pos valueOffs hash e) (he : Storable e) :
    u32leAt buf pos ≠ 0 := by
  intro hzero
  have hpad := e.le_entryPadded
  have hfit := h.fits
  have hword : u32le (u32leAt buf pos) = slice buf pos 4 := u32le_u32leAt (by omega)
  have hbytes : slice buf pos 4 = [0, 0, 0, 0] := by
    rw [← hword, hzero]
    decide
  have hlen := h.nameLen
  have hidx := h.nameIndex
  rw [← Nat.add_zero pos, ← getD_slice _ _ 4 0 (by decide), hbytes] at hlen
  rw [← getD_slice _ _ 4 1 (by decide), hbytes] at hidx
  apply he.named
  refine ⟨hidx.symm, ?_⟩
  have hnat := congrArg UInt8.toNat hlen
  rw [UInt8.toNat_ofNat'] at hnat
  have hle := he.name_le
  have h0 : e.nameBytes.length = 0 := by
    have : ([0, 0, 0, 0] : Bytes).getD 0 0 = 0 := rfl
    rw [this] at hnat
    have hz : (0 : UInt8).toNat = 0 := rfl
    omega
  exact List.length_eq_zero_iff.mp h0

theorem EntryAt.nameLen_toNat {buf : Bytes} {pos valueOffs : Nat} {hash : Option UInt32}
    {e : DecodedEntry} (h : EntryAt buf pos valueOffs hash e) (he : Storable e) :
    (buf.getD pos 0).toNat = e.nameBytes.length := by
  have hle := he.name_le
  rw [h.nameLen, UInt8.toNat_ofNat']
  omega

theorem valueAt_packed {hash : DecodedEntry → Option UInt32} {buf : Bytes} {e : DecodedEntry}
    {rest : List DecodedEntry} {pos valueEnd : Nat} (outOfRange : String)
    (h : PackedAt hash buf (e :: rest) pos valueEnd) (hlen : buf.length ≤ 65536) :
    valueAt buf outOfRange pos = .ok e.value := by
  obtain ⟨hentry, ⟨hroom, hend, hvalue⟩, -⟩ := h
  have hval := e.le_valuePadded
  unfold valueAt
  dsimp only
  rw [hentry.valueInum, hentry.valueOffs, hentry.valueSize, UInt32.toNat_ofNat',
    UInt16.toNat_ofNat']
  have hsize : e.value.length % 2 ^ 32 = e.value.length := Nat.mod_eq_of_lt (by omega)
  rw [hsize]
  cases hempty : e.value with
  | nil => rfl
  | cons b bs =>
    have hpos : 0 < e.value.length := by
      rw [hempty]
      exact Nat.succ_pos _
    have hoffs : e.offs valueEnd = valueEnd - e.valuePadded := by
      unfold DecodedEntry.offs
      rw [hempty]
      rfl
    have hsmall : (valueEnd - e.valuePadded) % 2 ^ 16 = valueEnd - e.valuePadded :=
      Nat.mod_eq_of_lt (by omega)
    have hheld : ¬ ((0 : UInt32) ≠ 0 ∨ e.value.length = 0) :=
      fun hor => hor.elim (fun hne => hne rfl) (fun h0 => by omega)
    rw [← hempty, hoffs, hsmall, if_neg hheld, if_neg (by omega), hvalue]

theorem decodeFrom_packed {hash : DecodedEntry → Option UInt32} {buf : Bytes}
    {es : List DecodedEntry} {pos valueEnd fuel : Nat} (nameOverruns outOfRange : String)
    (h : PackedAt hash buf es pos valueEnd) (hstorable : ∀ e ∈ es, Storable e)
    (hlen : buf.length ≤ 65536) (hstop : u32leAt buf (pos + neededEntries es) = 0)
    (hfuel : es.length < fuel) :
    decodeFrom buf nameOverruns outOfRange fuel pos = .ok es := by
  induction es generalizing pos valueEnd fuel with
  | nil =>
    obtain ⟨fuel, rfl⟩ := Nat.exists_eq_succ_of_ne_zero (Nat.ne_of_gt hfuel)
    rw [neededEntries_nil, Nat.add_zero] at hstop
    rw [decodeFrom, if_pos (.inr hstop)]
    rfl
  | cons e rest ih =>
    obtain ⟨fuel, rfl⟩ := Nat.exists_eq_succ_of_ne_zero (show fuel ≠ 0 by omega)
    have hvalue := valueAt_packed outOfRange h hlen
    obtain ⟨hentry, -, hrest⟩ := h
    have he := hstorable e List.mem_cons_self
    have hpad := e.le_entryPadded
    have hfit := hentry.fits
    have hname := hentry.nameLen_toNat he
    rw [neededEntries_cons, ← Nat.add_assoc] at hstop
    have hnext : decodeFrom buf nameOverruns outOfRange fuel (pos + e.entryPadded) = .ok rest :=
      ih hrest (fun x hx => hstorable x (List.mem_cons_of_mem _ hx)) hstop (by simpa using hfuel)
    have hgo : ¬ (buf.length < pos + 16 ∨ u32leAt buf pos = 0) :=
      fun hor => hor.elim (fun hlt => by omega) (hentry.header_ne_zero he)
    have hpadded : (16 + e.nameBytes.length + 3) / 4 * 4 = e.entryPadded := rfl
    rw [decodeFrom, if_neg hgo, hname]
    dsimp only
    rw [if_neg (by omega), hvalue, hpadded, hnext, hentry.nameIndex, hentry.nameBytes,
      hentry.valueInum, ← he.inum]
    rfl

theorem slice_front {x b : Bytes} {n : Nat} (hn : n = x.length) : slice (x ++ b) 0 n = x :=
  slice_mid (a := []) rfl hn

/-- The bytes are a region that stores the entries in order. -/
structure RegionStores (len : Nat) (bytes : Bytes) (es : List DecodedEntry) : Prop where
  length : bytes.length = len
  room : neededEntries es + 4 + neededValues es ≤ len - 4
  magic : u32leAt bytes 0 = xattrMagic
  packed : PackedAt (fun _ => none) (bytes.drop 4) (sortBy inInodeOrder es) 0 (len - 4)
  stop : u32leAt (bytes.drop 4) (neededEntries es) = 0

/-- The bytes are a block that stores the entries in order, with their hashes. -/
structure BlockStores (len : Nat) (bytes : Bytes) (refcount : UInt32)
    (es : List DecodedEntry) : Prop where
  length : bytes.length = len
  room : neededEntries es + 4 + neededValues es ≤ len - 32
  magic : u32leAt bytes 0 = xattrMagic
  refcount : u32leAt bytes 4 = refcount
  blocks : u32leAt bytes 8 = 1
  hash : u32leAt bytes 12 = blockHash ((sortBy externalOrder es).map (·.hash))
  packed : PackedAt (fun e => some e.hash) bytes (sortBy externalOrder es) 32 len
  stop : u32leAt bytes (32 + neededEntries es) = 0

theorem u32leAt_zeros {a w : Bytes} {n off : Nat} (hoff : off = a.length) (hn : 4 ≤ n) :
    u32leAt (a ++ (List.replicate n 0 ++ w)) off = 0 := by
  have hzero : List.replicate 4 (0 : UInt8) = u32le 0 := by decide
  have hsplit : List.replicate n (0 : UInt8) = u32le 0 ++ List.replicate (n - 4) 0 := by
    rw [← hzero, List.replicate_append_replicate]
    congr 1
    omega
  apply u32leAt_of_slice
  rw [hsplit, List.append_assoc]
  exact slice_mid hoff (by simp)

theorem encodeInInodeEntries_stores {region : Bytes} {es : List DecodedEntry}
    (hfit : neededEntries es + 4 + neededValues es ≤ region.length - 4) :
    ∃ bytes, encodeInInodeEntries region es = some bytes ∧ RegionStores region.length bytes es := by
  obtain ⟨hne, hnv⟩ := needed_perm (sortBy_perm inInodeOrder es)
  have hwrite := writeEntries_eq (fun _ => none) (sortBy inInodeOrder es) [] []
    (region.length - 4) (by omega)
  simp only [List.nil_append, List.append_nil, List.length_nil, Nat.zero_add, hne, hnv] at hwrite
  have hencode : encodeInInodeEntries region es = some (u32le xattrMagic ++
      (entriesBytes (fun _ => none) (sortBy inInodeOrder es) (region.length - 4) ++
        (List.replicate (region.length - 4 - neededEntries es - neededValues es) 0 ++
          valuesBytes (sortBy inInodeOrder es)))) := by
    unfold encodeInInodeEntries
    dsimp only
    rw [hwrite]
    rfl
  have hdrop : ∀ b : Bytes, (u32le xattrMagic ++ b).drop 4 = b := fun b => by
    rw [List.drop_left' (length_u32le _)]
  refine ⟨_, hencode, ?_, hfit, ?_, ?_, ?_⟩
  · simp only [List.length_append, length_u32le, length_entriesBytes, List.length_replicate,
      length_valuesBytes]
    omega
  · apply u32leAt_of_slice
    exact slice_front (length_u32le _).symm
  · rw [hdrop]
    have hpacked := packedAt_entriesBytes (fun _ => none) (sortBy inInodeOrder es) []
      (List.replicate (region.length - 4 - neededEntries es - neededValues es) 0) []
        (region.length - 4)
      (by simp only [List.length_nil, List.length_replicate]; omega)
    simpa only [List.nil_append, List.append_nil, List.length_nil] using hpacked
  · rw [hdrop]
    exact u32leAt_zeros (by rw [length_entriesBytes, hne]) (by omega)

def headerBytes (refcount hash : UInt32) : Bytes :=
  u32le xattrMagic ++ (u32le refcount ++ (u32le 1 ++ (u32le hash ++ List.replicate 16 0)))

@[simp] theorem length_headerBytes (refcount hash : UInt32) : (headerBytes refcount hash).length =
  32 := by
  simp [headerBytes]

theorem newHeader_eq {n : Nat} (refcount : UInt32) (h : 32 ≤ n) :
    copyAt (List.replicate n 0) 0 (u32le xattrMagic ++ (u32le refcount ++ u32le 1)) =
      headerBytes refcount 0 ++ (List.replicate (n - 32) 0 ++ []) := by
  have hsize : (u32le xattrMagic ++ (u32le refcount ++ u32le 1)).length = 12 := by simp
  have hzero : u32le 0 = List.replicate 4 (0 : UInt8) := by decide
  have hcopy := @copyAt_zeros [] (u32le xattrMagic ++ (u32le refcount ++ u32le 1)) 0 n
    [] rfl (by omega)
  rw [List.nil_append, List.nil_append, List.append_nil, hsize,
    skip_zeros _ _ (show 4 ≤ n - 12 by omega), skip_zeros _ _ (show 16 ≤ n - 12 - 4 by omega),
    Nat.sub_sub, Nat.sub_sub] at hcopy
  rw [hcopy]
  simp only [headerBytes, hzero, List.append_assoc]

theorem copyAt_headerBytes (refcount hash hash' : UInt32) (rest : Bytes) :
    copyAt (headerBytes refcount hash ++ rest) 12 (u32le hash') = headerBytes refcount
      hash' ++ rest := by
  have hsplit : headerBytes refcount hash ++ rest =
    (u32le xattrMagic ++ (u32le refcount ++ u32le 1)) ++
      (u32le hash ++ (List.replicate 16 0 ++ rest)) := by
    simp only [headerBytes, List.append_assoc]
  rw [hsplit, copyAt_next (by simp), length_u32le, List.drop_left' (length_u32le hash)]
  simp only [headerBytes, List.append_assoc]

theorem encodeExternalBlock_stores {block : Bytes} {es : List DecodedEntry} (refcount : UInt32)
    (hlen : 32 ≤ block.length) (hfit : neededEntries es + 4 + neededValues es ≤ block.length - 32) :
    ∃ bytes, encodeExternalBlock block es refcount = some bytes ∧
      BlockStores block.length bytes refcount es := by
  obtain ⟨hne, hnv⟩ := needed_perm (sortBy_perm externalOrder es)
  have hend : 32 + (block.length - 32) = block.length := by omega
  have hwrite := writeEntries_eq (fun e => some e.hash) (sortBy externalOrder es)
    (headerBytes refcount 0) [] (block.length - 32) (by omega)
  rw [length_headerBytes, hend, hne, hnv] at hwrite
  have hencode : encodeExternalBlock block es refcount = some
      (headerBytes refcount (blockHash ((sortBy externalOrder es).map (·.hash))) ++
        (entriesBytes (fun e => some e.hash) (sortBy externalOrder es) block.length ++
          (List.replicate (block.length - 32 - neededEntries es - neededValues es) 0 ++
            (valuesBytes (sortBy externalOrder es) ++ [])))) := by
    unfold encodeExternalBlock
    dsimp only
    rw [newHeader_eq refcount hlen, hwrite, Option.map_some, copyAt_headerBytes]
  refine ⟨_, hencode, ?_, hfit, ?_, ?_, ?_, ?_, ?_, ?_⟩
  · simp only [List.length_append, length_headerBytes, length_entriesBytes, List.length_replicate,
      length_valuesBytes, List.length_nil]
    omega
  · apply u32leAt_of_slice
    simp only [headerBytes, List.append_assoc]
    exact slice_front (length_u32le _).symm
  · apply u32leAt_of_slice
    simp only [headerBytes, List.append_assoc]
    exact slice_mid (by simp) (by simp)
  · apply u32leAt_of_slice
    simp only [headerBytes, List.append_assoc]
    rw [← List.append_assoc (u32le xattrMagic)]
    exact slice_mid (by simp) (by simp)
  · apply u32leAt_of_slice
    simp only [headerBytes, List.append_assoc]
    rw [← List.append_assoc (u32le xattrMagic), ← List.append_assoc _ (u32le 1)]
    exact slice_mid (by simp) (by simp)
  · have hpacked := packedAt_entriesBytes (fun e => some e.hash) (sortBy externalOrder es)
      (headerBytes refcount (blockHash ((sortBy externalOrder es).map (·.hash))))
      (List.replicate (block.length - 32 - neededEntries es - neededValues es) 0) [] block.length
      (by rw [length_headerBytes, List.length_replicate]; omega)
    rw [length_headerBytes] at hpacked
    exact hpacked
  · rw [← List.append_assoc]
    exact u32leAt_zeros (by rw [List.length_append, length_headerBytes, length_entriesBytes, hne])
      (by omega)

theorem length_le_neededEntries (es : List DecodedEntry) : es.length ≤ neededEntries es := by
  induction es with
  | nil => exact Nat.le_refl _
  | cons e rest ih =>
    have hpad := e.le_entryPadded
    rw [List.length_cons, neededEntries_cons]
    omega

section Stored

variable {es : List DecodedEntry} {bytes : Bytes} {len : Nat} {refcount : UInt32}

theorem RegionStores.decode (h : RegionStores len bytes es) (hstorable : ∀ e ∈ es, Storable e)
    (hlen : len ≤ 65536) : decodeInInodeEntries (bytes.drop 4) = .ok (sortBy inInodeOrder es) := by
  have hperm := sortBy_perm inInodeOrder es
  have hlength := h.length
  have hroom := h.room
  have hcount := length_le_neededEntries es
  have hstop := h.stop
  rw [← (needed_perm hperm).1, ← Nat.zero_add (neededEntries _)] at hstop
  apply decodeFrom_packed _ _ h.packed
  · exact fun e he => hstorable e (hperm.mem_iff.mp he)
  · rw [List.length_drop]
    omega
  · exact hstop
  · rw [hperm.length_eq, List.length_drop]
    omega

theorem BlockStores.decode (h : BlockStores len bytes refcount es)
    (hstorable : ∀ e ∈ es, Storable e)
    (hlen : len ≤ 65536) : decodeExternalBlockEntries bytes = .ok (sortBy externalOrder es) := by
  have hperm := sortBy_perm externalOrder es
  have hlength := h.length
  have hroom := h.room
  have hcount := length_le_neededEntries es
  have hstop := h.stop
  rw [← (needed_perm hperm).1] at hstop
  unfold decodeExternalBlockEntries
  rw [if_neg (by omega)]
  apply decodeFrom_packed _ _ h.packed
  · exact fun e he => hstorable e (hperm.mem_iff.mp he)
  · omega
  · exact hstop
  · rw [hperm.length_eq]
    omega

end Stored

end FsExt4.Xattr
