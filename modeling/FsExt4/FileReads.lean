import FsExt4.FileIo

namespace FsExt4.FileIo

open Lib Jbd2 PointerTree

section Content

variable (fs : Filesystem) (d : Disk)

/-- The bytes that a block map stands for: zeros where it maps nothing. -/
def contentOf (map : Nat → Option Nat) : Image := fun i =>
  match map (i / fs.sb.blockSize) with
  | none => 0
  | some physicalBlock => d.img (physicalBlock * fs.sb.blockSize + i % fs.sb.blockSize)

/-- The block map that extents make: none for a hole, and none for what was never written. -/
def extentMap (es : List Extent) (logical : Nat) : Option Nat :=
  physicalOf (es.find? (covers Extent.logicalBlock Extent.length logical)) logical

/-- A mapping of each kind in form, with the bytes it gives and the extent nodes below the root. -/
inductive FileOn (inode : Inode) (raw : Bytes) : Image → List Nat → Prop
  | extents {n : Nat} (t : LevelTree Extent n) (outline : inode.hasInlineData = false)
      (mapped : inode.hasExtents = true)
      (form : WellFormed fs.sb.blockSize (nodeOn d fs.sb.blockSize) inode.block t)
      (onDevice : ∀ logical p, extentMap t.entries logical = some p →
      (p + 1) * fs.sb.blockSize ≤ d.size)
      (size : d.size < 2 ^ 64) : FileOn inode raw (contentOf fs d (extentMap t.entries)) t.addresses
  | blockMap (map : Nat → Option Nat) (outline : inode.hasInlineData = false)
      (unmapped : inode.hasExtents = false) (blockSize : Indirect.BlockSize fs.sb.blockSize)
      (addressed : inode.size ≤ Indirect.addressable fs.sb.blockSize * fs.sb.blockSize)
      (form : ∀ logical, logical * fs.sb.blockSize < inode.size →
        let tier := Indirect.tierOf fs.sb.blockSize logical
        walk (Indirect.node fs.sb.blockSize d) (Indirect.ppb fs.sb.blockSize) tier.height
          (logical - tier.first) (Indirect.ptrAt inode.block tier.slot) = .ok (map logical))
      (onDevice : ∀ logical p, map logical = some p → (p + 1) * fs.sb.blockSize ≤ d.size)
      (size : d.size < 2 ^ 64) : FileOn inode raw (contentOf fs d map) []
  | inline (extra : Bytes) (inlined : inode.hasInlineData = true) (block : inode.block.length = 60)
      (continued : InlineData.inlineBlockSize < inode.size → inode.size - 60 ≤ extra.length ∧
        (Xattr.get inode raw fs.sb.inodeSize fs.sb.blockSize Xattr.systemData).exec d =
          (.ok (some extra), d)) :
      FileOn inode raw (fun i => (inode.block ++ extra).getD i 0) []

def readOf (content : Image) (size offset length : Nat) (out : Bytes) : Nat × Bytes :=
  let n := min (min length out.length) (size - offset)
  (n, content.read offset n ++ out.drop n)

end Content

section Block

variable {fs : Filesystem} {d : Disk} {map : Nat → Option Nat}

theorem blockSize_pos : 0 < fs.sb.blockSize := Nat.lt_of_lt_of_le (by decide) (blockSize_ge fs.sb)

theorem read_contentOf {cur n : Nat} (hfit : cur % fs.sb.blockSize + n ≤ fs.sb.blockSize) :
    (contentOf fs d map).read cur n = match map (cur / fs.sb.blockSize) with
      | none => List.replicate n 0
      | some p => d.img.read (p * fs.sb.blockSize + cur % fs.sb.blockSize) n := by
  have hpos : 0 < fs.sb.blockSize := blockSize_pos
  have hplace : ∀ i < n, (cur + i) / fs.sb.blockSize = cur / fs.sb.blockSize ∧
      (cur + i) % fs.sb.blockSize = cur % fs.sb.blockSize + i := by
    intro i hi
    have hcur := Nat.div_add_mod' cur fs.sb.blockSize
    have hdiv : (cur + i) / fs.sb.blockSize = cur / fs.sb.blockSize :=
      Nat.div_eq_of_lt_le (by omega) (by rw [Nat.succ_mul]; omega)
    have hsum := Nat.div_add_mod' (cur + i) fs.sb.blockSize
    rw [hdiv] at hsum
    exact ⟨hdiv, by omega⟩
  have hbytes : (contentOf fs d map).read cur n = (List.range n).map (fun i =>
      match map (cur / fs.sb.blockSize) with
      | none => 0
      | some p => d.img (p * fs.sb.blockSize + cur % fs.sb.blockSize + i)) := by
    refine List.map_congr_left fun i hi => ?_
    obtain ⟨hdiv, hmod⟩ := hplace i (List.mem_range.mp hi)
    rw [contentOf, hdiv, hmod]
    simp only [Nat.add_assoc]
  rw [hbytes]
  cases map (cur / fs.sb.blockSize) with
  | none => simp only [List.map_const', List.length_range]
  | some p => rfl

theorem fill_eq (honDevice : ∀ logical p, map logical = some p → (p + 1) * fs.sb.blockSize ≤ d.size)
    (hsize : d.size < 2 ^ 64) {cur n : Nat} (hfit : cur % fs.sb.blockSize + n ≤ fs.sb.blockSize)
    (overflow : Error) :
    fill fs d (map (cur / fs.sb.blockSize)) (cur % fs.sb.blockSize) n overflow =
      .ok ((contentOf fs d map).read cur n) := by
  have hdevice := honDevice (cur / fs.sb.blockSize)
  rw [read_contentOf hfit]
  cases hmap : map (cur / fs.sb.blockSize) with
  | none => rfl
  | some p =>
    have hend := hdevice p hmap
    rw [Nat.succ_mul] at hend
    rw [fill, readPart, if_neg (by omega), exec_readAt d _ _ (by omega)]

end Block

section Loop

variable {fs : Filesystem} {d : Disk} {inode : Inode} {lookupExtent : Nat → DevIo (Option Extent)}

theorem read_add (content : Image) (cur a b : Nat) :
    content.read cur (a + b) = content.read cur a ++ content.read (cur + a) b := by
  rw [Image.read, List.range_add, List.map_append, List.map_map]
  refine congrArg₂ (· ++ ·) rfl (List.map_congr_left fun i _ => ?_)
  exact congrArg content (by simp only [Nat.add_assoc])

/-- A turn of the loop puts the file's bytes into the buffer, from any caches that earlier turns can
have left. -/
def Serves (fs : Filesystem) (d : Disk) (inode : Inode) (lookupExtent : Nat → DevIo (Option Extent))
    (content : Image) (kept : Caches → Prop) : Prop :=
  ∀ c, kept c → ∀ cur n, cur < inode.size → cur % fs.sb.blockSize + n ≤ fs.sb.blockSize →
    ∃ c', kept c' ∧ readBlock fs d inode lookupExtent c (cur / fs.sb.blockSize)
      (cur % fs.sb.blockSize) n = .ok (content.read cur n, c')

theorem Serves.readLoop {content : Image} {kept : Caches → Prop}
    (h : Serves fs d inode lookupExtent content kept) {stop : Nat} (hstop : stop ≤ inode.size)
    (turns cur : Nat) {c : Caches} (hc : kept c) (hturns : stop - cur ≤ turns) (hcur : cur ≤ stop)
    (pre rest : Bytes) (hroom : stop - cur ≤ rest.length) :
    FileIo.readLoop fs d inode lookupExtent stop turns cur pre.length c (pre ++ rest) =
      .ok (pre.length + (stop - cur), pre ++ content.read cur (stop - cur) ++ rest.drop
        (stop - cur)) := by
  induction turns generalizing cur c pre rest with
  | zero =>
    have hnone : stop - cur = 0 := by omega
    rw [hnone]
    simp only [FileIo.readLoop, Nat.add_zero, Image.read, List.range_zero, List.map_nil,
      List.append_nil, List.drop_zero]
  | succ turns ih =>
    rw [FileIo.readLoop]
    by_cases hlt : cur < stop
    · have hpos : 0 < fs.sb.blockSize := blockSize_pos
      have hmod := Nat.mod_lt cur hpos
      obtain ⟨c', hc', hblock⟩ :=
        h c hc cur (min (fs.sb.blockSize - cur % fs.sb.blockSize) (stop - cur))
        (by omega) (by omega)
      generalize hn : min (fs.sb.blockSize - cur % fs.sb.blockSize) (stop - cur) = n at hblock
      have hlen : (content.read cur n).length = n := Image.length_read _ _ _
      have hrest := ih (cur + n) hc' (by omega) (by omega) (pre ++ content.read cur n) (rest.drop n)
        (by rw [List.length_drop]; omega)
      have hleft : stop - cur = n + (stop - (cur + n)) := by omega
      rw [if_pos hlt]
      dsimp only
      rw [hn, hblock]
      dsimp only [Except.bind, bind]
      rw [copyAt_next rfl, hlen]
      rw [List.length_append, hlen] at hrest
      rw [hrest, hleft, read_add, List.drop_drop]
      simp only [List.append_assoc, Nat.add_assoc]
    · rw [if_neg hlt, show stop - cur = 0 by omega]
      simp only [Nat.add_zero, Image.read, List.range_zero, List.map_nil, List.append_nil,
        List.drop_zero]

theorem refuseEncrypted_ok (hplain : inode.flags &&& inodeFlagEncrypt = 0) :
    refuseEncrypted inode = .ok () := by
  rw [refuseEncrypted, if_neg]
  rintro ⟨hne, -⟩
  exact hne hplain

theorem Serves.readBy {content : Image} {kept : Caches → Prop}
    (h : Serves fs d inode lookupExtent content kept) (hfresh : kept ⟨none, .new⟩)
    (hplain : inode.flags &&& inodeFlagEncrypt = 0) (houtline : inode.hasInlineData = false)
    (offset length : Nat) (out : Bytes) :
    FileIo.readBy fs d inode lookupExtent offset length out =
      .ok (readOf content inode.size offset length out) := by
  have hzero : min (min length out.length) (inode.size - offset) = 0 →
      readOf content inode.size offset length out = (0, out) := by
    intro hn
    simp only [readOf, hn, Image.read, List.range_zero, List.map_nil, List.nil_append,
      List.drop_zero]
  unfold FileIo.readBy
  rw [refuseEncrypted_ok hplain]
  dsimp only [Except.bind, bind]
  split
  · rename_i hnothing
    have hnone : min (min length out.length) (inode.size - offset) = 0 := by
      obtain rfl | hempty := hnothing
      · omega
      · rw [List.isEmpty_iff.mp hempty, List.length_nil]
        omega
    rw [hzero hnone]
    rfl
  rw [houtline, if_neg Bool.false_ne_true]
  split
  · rw [hzero (by omega)]
    rfl
  split
  · rw [hzero (by omega)]
    rfl
  · rename_i hsome hrange hmax
    have hn : min (min (inode.size - offset) length) out.length =
        min (min length out.length) (inode.size - offset) := by omega
    have hstop : offset + min (min (inode.size - offset) length) out.length ≤ inode.size := by omega
    have hloop := h.readLoop hstop (min (min (inode.size - offset) length) out.length) offset hfresh
      (by omega) (by omega) [] out (by omega)
    rw [List.length_nil, List.nil_append, Nat.add_sub_cancel_left] at hloop
    rw [hloop, readOf, hn, Nat.zero_add, List.nil_append]

end Loop

section Schemes

variable {fs : Filesystem} {d : Disk} {inode : Inode}

theorem extentOf_eq {lookupExtent : Nat → DevIo (Option Extent)} {es : List Extent}
    (happart : Apart Extent.logicalBlock Extent.length es)
    (hlookup : ∀ logical, ((lookupExtent logical).exec d).1 =
      .ok (es.find? (covers Extent.logicalBlock Extent.length logical)))
    {cachedExtent : Option Extent} (hcached : ∀ e, cachedExtent = some e → e ∈ es) (logical : Nat) :
    extentOf d lookupExtent cachedExtent logical =
      .ok (es.find? (covers Extent.logicalBlock Extent.length logical)) := by
  cases cachedExtent with
  | none => exact hlookup logical
  | some e =>
    rw [extentOf]
    split
    · rename_i hcontains
      rw [(find?_eq_some_iff_of_apart happart e).mpr ⟨hcached e rfl, hcontains⟩]
    · exact hlookup logical

theorem serves_extents {lookupExtent : Nat → DevIo (Option Extent)} {es : List Extent}
    (hext : inode.hasExtents = true) (happart : Apart Extent.logicalBlock Extent.length es)
    (hlookup : ∀ logical, ((lookupExtent logical).exec d).1 =
      .ok (es.find? (covers Extent.logicalBlock Extent.length logical)))
    (honDevice : ∀ logical p, extentMap es logical = some p → (p + 1) * fs.sb.blockSize ≤ d.size)
    (hsize : d.size < 2 ^ 64) :
    Serves fs d inode lookupExtent (contentOf fs d (extentMap es))
      (fun c => ∀ e, c.cachedExtent = some e → e ∈ es) := by
  intro c hc cur n _ hfit
  refine ⟨{ c with cachedExtent := es.find? (covers Extent.logicalBlock Extent.length
    (cur / fs.sb.blockSize)) }, fun e he => List.mem_of_find?_eq_some he, ?_⟩
  rw [readBlock, if_pos hext, extentOf_eq happart hlookup hc]
  have hfill := fill_eq honDevice hsize hfit (.corruptExtentTree "physical block offset overflow")
  unfold extentMap at hfill
  dsimp only [Except.bind, bind]
  rw [hfill]
  rfl

theorem serves_blockMap {lookupExtent : Nat → DevIo (Option Extent)} {map : Nat → Option Nat}
    (hext : inode.hasExtents = false) (hbs : Indirect.BlockSize fs.sb.blockSize)
    (haddressed : inode.size ≤ Indirect.addressable fs.sb.blockSize * fs.sb.blockSize)
    (hform : ∀ logical, logical * fs.sb.blockSize < inode.size →
      let tier := Indirect.tierOf fs.sb.blockSize logical
      walk (Indirect.node fs.sb.blockSize d) (Indirect.ppb fs.sb.blockSize) tier.height
        (logical - tier.first) (Indirect.ptrAt inode.block tier.slot) = .ok (map logical))
    (honDevice : ∀ logical p, map logical = some p → (p + 1) * fs.sb.blockSize ≤ d.size)
    (hsize : d.size < 2 ^ 64) :
    Serves fs d inode lookupExtent (contentOf fs d map)
      (fun c => Indirect.Coherent d fs.sb.blockSize c.indirectCache) := by
  intro c hc cur n hcur hfit
  have hpos : 0 < fs.sb.blockSize := blockSize_pos
  have hdiv := Nat.div_mul_le_self cur fs.sb.blockSize
  have hlogical : cur / fs.sb.blockSize < Indirect.addressable fs.sb.blockSize :=
    (Nat.div_lt_iff_lt_mul hpos).mpr (by omega)
  obtain ⟨hlookup, hcoherent⟩ := Indirect.lookupCached_eq inode.block (cur / fs.sb.blockSize) hc
  rw [Indirect.exec_lookup hbs hlogical, hform _ (by omega)] at hlookup
  refine ⟨{ c with indirectCache := (Indirect.lookupCached inode.block d fs.sb.blockSize
    (cur / fs.sb.blockSize) c.indirectCache).2 }, hcoherent, ?_⟩
  rw [readBlock, if_neg (by rw [hext]; exact Bool.false_ne_true)]
  generalize Indirect.lookupCached inode.block d fs.sb.blockSize (cur / fs.sb.blockSize)
    c.indirectCache = found at hlookup
  obtain ⟨physOpt, cache⟩ := found
  obtain rfl : physOpt = .ok (map (cur / fs.sb.blockSize)) := hlookup
  dsimp only [Except.bind, bind]
  rw [fill_eq honDevice hsize hfit]
  rfl

end Schemes

section Inline

variable {inode : Inode} {raw extra : Bytes} {inodeSize blockSize : Nat} {d : Disk}

theorem read_getD (b : Bytes) {off n : Nat} (h : off + n ≤ b.length) :
    Image.read (fun i => b.getD i 0) off n = slice b off n := by
  refine ext_getD (by rw [Image.length_read, length_slice_of_le _ _ _ h]) fun i hi => ?_
  rw [Image.length_read] at hi
  rw [Image.getD_read _ _ _ _ hi, getD_slice _ _ _ _ hi]

section Read

variable (hblock : inode.block.length = 60)
  (hextra : InlineData.inlineBlockSize < inode.size → inode.size - 60 ≤ extra.length ∧
    (Xattr.get inode raw inodeSize blockSize Xattr.systemData).exec d = (.ok (some extra), d))

include hblock hextra

theorem exec_readAll : (InlineData.readAll inode raw inodeSize blockSize).exec d =
    (.ok (Image.read (fun i => (inode.block ++ extra).getD i 0) 0 inode.size), d) := by
  have hsixty : InlineData.inlineBlockSize = 60 := rfl
  unfold InlineData.readAll
  dsimp only
  by_cases hfits : inode.size ≤ InlineData.inlineBlockSize
  · rw [if_pos hfits, read_getD _ (by rw [List.length_append]; omega),
      slice_append_left _ _ _ _ (by omega), Nat.min_eq_left hfits]
    rfl
  · obtain ⟨hlen, hget⟩ := hextra (Nat.lt_of_not_le hfits)
    rw [if_neg hfits, Io.exec_bind_ok _ _ _ _ _ hget]
    dsimp only
    rw [if_neg (by omega), read_getD _ (by rw [List.length_append]; omega), Nat.min_eq_right
      (by omega), hsixty, List.take_of_length_le (by omega)]
    have hslice : slice (inode.block ++ extra) 0 inode.size = inode.block ++ extra.take
        (inode.size - 60) := by
      rw [slice, List.drop_zero, List.take_append, List.take_of_length_le (by omega), hblock]
    rw [hslice]
    rfl

theorem exec_readRange (offset : Nat) (out : Bytes) :
    (InlineData.readRange inode raw inodeSize blockSize offset out).exec d =
      (.ok (readOf (fun i => (inode.block ++ extra).getD i 0) inode.size offset out.length out),
      d) := by
  unfold InlineData.readRange readOf
  dsimp only
  rw [Nat.min_self]
  by_cases hpast : inode.size ≤ offset
  · rw [if_pos hpast, show min out.length (inode.size - offset) = 0 by omega]
    rfl
  · rw [if_neg hpast, Io.exec_bind_ok _ _ _ _ _ (exec_readAll hblock hextra)]
    have hn : min (min (inode.size - offset) out.length) (inode.size - offset) =
        min out.length (inode.size - offset) := by omega
    rw [Image.length_read, hn, Image.slice_read _ _ _ _ _ (by omega), Nat.zero_add, copyAt,
      List.take_zero, List.nil_append, Nat.zero_add, Image.length_read]
    rfl

end Read

end Inline

section Files

variable {fs : Filesystem} {d : Disk} {inode : Inode} {raw : Bytes} {content : Image}
  {nodes : List Nat}

def SumsHold (crc : Crc) (csum : Checksummer) (fs : Filesystem) (d : Disk) (ino : UInt32)
    (inode : Inode) (nodes : List Nat) : Prop :=
  ∀ b ∈ nodes, csum.verifyExtentTail crc ino inode.generation
    (d.img.read (b * fs.sb.blockSize) fs.sb.blockSize) = true

theorem read_eq (h : FileOn fs d inode raw content nodes) (houtline : inode.hasInlineData = false)
    (hplain : inode.flags &&& inodeFlagEncrypt = 0) (offset length : Nat) (out : Bytes) :
    FileIo.read fs d inode offset length out =
      .ok (readOf content inode.size offset length out) := by
  cases h with
  | extents t _ mapped form onDevice size =>
    have hlookup : ∀ logical, ((Extent.lookup inode.block fs.sb.blockSize logical).exec d).1 =
        .ok (t.entries.find? (covers Extent.logicalBlock Extent.length logical)) :=
          fun logical => by
      rw [Extent.lookup_exec form]
    exact (serves_extents mapped form.apart hlookup onDevice size).readBy
      (fun _ h => nomatch h) hplain houtline offset length out
  | blockMap map _ unmapped blockSize addressed form onDevice size =>
    exact (serves_blockMap unmapped blockSize addressed form onDevice size).readBy
      (fun _ _ h => nomatch h) hplain houtline offset length out
  | inline extra inlined block continued =>
    rw [inlined] at houtline
    cases houtline

theorem readVerified_eq {crc : Crc} {csum : Checksummer} {ino : UInt32}
    (h : FileOn fs d inode raw content nodes) (hsums : SumsHold crc csum fs d ino inode nodes)
    (houtline : inode.hasInlineData = false) (hplain : inode.flags &&& inodeFlagEncrypt = 0)
    (offset length : Nat) (out : Bytes) :
    readVerified fs d inode crc csum ino offset length out =
      .ok (readOf content inode.size offset length out) := by
  cases h with
  | extents t _ mapped form onDevice size =>
    have haccepts : ∀ b ∈ t.addresses, (⟨ino, inode.generation, csum⟩ : ExtentVerifyCtx).accepts crc
        (d.img.read (b * fs.sb.blockSize) fs.sb.blockSize) = true := fun b hb => by
      rw [ExtentVerifyCtx.accepts, hsums b hb, Bool.or_true]
    have hlookup : ∀ logical, ((Extent.lookupVerified ((⟨ino, inode.generation, csum⟩ :
        ExtentVerifyCtx).accepts crc) inode.block fs.sb.blockSize logical).exec d).1 =
        .ok (t.entries.find? (covers Extent.logicalBlock Extent.length logical)) :=
          fun logical => by
      rw [Extent.lookupVerified_exec form haccepts]
    exact (serves_extents mapped form.apart hlookup onDevice size).readBy
      (fun _ h => nomatch h) hplain houtline offset length out
  | blockMap map _ unmapped blockSize addressed form onDevice size =>
    exact (serves_blockMap unmapped blockSize addressed form onDevice size).readBy
      (fun _ _ h => nomatch h) hplain houtline offset length out
  | inline extra inlined block continued =>
    rw [inlined] at houtline
    cases houtline

theorem readRange_eq (h : FileOn fs d inode raw content nodes)
    (hinline : inode.hasInlineData = true) (offset : Nat) (out : Bytes) :
    ((InlineData.readRange inode raw fs.sb.inodeSize fs.sb.blockSize offset out).exec d).1 =
      .ok (readOf content inode.size offset out.length out) := by
  cases h with
  | extents t outline =>
    rw [outline] at hinline
    cases hinline
  | blockMap map outline =>
    rw [outline] at hinline
    cases hinline
  | inline extra _ block continued => rw [exec_readRange block continued]

/-- The length asked for is no less than the file and the buffer allow, when the file is inline. -/
def LengthKept (inode : Inode) (offset length : Nat) (out : Bytes) : Prop :=
  inode.hasInlineData = true → min out.length (inode.size - offset) ≤ length

theorem readOf_length {size offset length : Nat} {out : Bytes} :
    readOf content size offset out.length out = readOf content size offset length out ↔
      min out.length (size - offset) ≤ length := by
  constructor
  · intro heq
    have hcount := congrArg Prod.fst heq
    simp only [readOf] at hcount
    omega
  · intro hle
    have hn : min (min length out.length) (size - offset) = min (min out.length out.length)
        (size - offset) := by
      omega
    simp only [readOf, hn]

theorem readWithRaw_eq (h : FileOn fs d inode raw content nodes)
    (hplain : inode.flags &&& inodeFlagEncrypt = 0) (offset length : Nat) (out : Bytes) :
    readWithRaw fs d inode raw offset length out = .ok (readOf content inode.size offset
      (if inode.hasInlineData then out.length else length) out) := by
  rw [readWithRaw, refuseEncrypted_ok hplain]
  dsimp only [Except.bind, bind]
  by_cases hinline : inode.hasInlineData = true
  · rw [if_pos hinline, if_pos hinline, readRange_eq h hinline]
  · rw [if_neg hinline, if_neg hinline, read_eq h (Bool.eq_false_iff.mpr hinline) hplain]

theorem readWithRawVerified_eq {crc : Crc} {csum : Checksummer} {ino : UInt32}
    (h : FileOn fs d inode raw content nodes) (hsums : SumsHold crc csum fs d ino inode nodes)
    (hplain : inode.flags &&& inodeFlagEncrypt = 0) (offset length : Nat) (out : Bytes) :
    readWithRawVerified fs d inode crc csum raw ino offset length out =
      readWithRaw fs d inode raw offset length out := by
  rw [readWithRaw_eq h hplain, readWithRawVerified, refuseEncrypted_ok hplain]
  dsimp only [Except.bind, bind]
  by_cases hinline : inode.hasInlineData = true
  · rw [if_pos hinline, if_pos hinline, readRange_eq h hinline]
  · rw [if_neg hinline, if_neg hinline, readVerified_eq h hsums
      (Bool.eq_false_iff.mpr hinline) hplain]

/-- Both reads give back `min(length, out.len, size - offset)` and put just that many bytes of the
file into the buffer, the verified one when the checksums that it looks at hold. -/
structure ReadsTheFile (crc : Crc) (csum : Checksummer) (fs : Filesystem) (d : Disk) (ino : UInt32)
    (inode : Inode) (raw : Bytes) (content : Image) (nodes : List Nat) (offset length : Nat)
      (out : Bytes) :
    Prop where
  unverified : readWithRaw fs d inode raw offset length out =
    .ok (readOf content inode.size offset length out)
  verified : SumsHold crc csum fs d ino inode nodes →
    readWithRawVerified fs d inode crc csum raw ino offset length out =
      .ok (readOf content inode.size offset length out)

/-- Reads give the file's bytes exactly when an inline file is not asked for less than the buffer
holds; the two reads agree where the checksums hold, and two files with the same bytes read the
same, whatever maps them. -/
theorem readsTheFile_iff (h : FileOn fs d inode raw content nodes)
    (hplain : inode.flags &&& inodeFlagEncrypt = 0) (crc : Crc) (csum : Checksummer) (ino : UInt32)
    (offset length : Nat) (out : Bytes) :
    (ReadsTheFile crc csum fs d ino inode raw content nodes offset length out ↔
      LengthKept inode offset length out) ∧
    (SumsHold crc csum fs d ino inode nodes →
      readWithRawVerified fs d inode crc csum raw ino offset length out =
        readWithRaw fs d inode raw offset length out) ∧
    ∀ {fs' : Filesystem} {d' : Disk} {inode' : Inode} {raw' : Bytes} {content' : Image}
      {nodes' : List Nat},
      FileOn fs' d' inode' raw' content' nodes' → inode'.flags &&& inodeFlagEncrypt = 0 →
      inode'.size = inode.size → (∀ i < inode.size, content' i = content i) →
      LengthKept inode offset length out → LengthKept inode' offset length out →
      readWithRaw fs' d' inode' raw' offset length out = readWithRaw fs d inode raw offset
        length out := by
  have hkept : ∀ {inode : Inode} {content : Image}, LengthKept inode offset length out →
      readOf content inode.size offset (if inode.hasInlineData then out.length else length) out =
        readOf content inode.size offset length out := by
    intro inode content hkept
    split
    · rename_i hinline
      exact readOf_length.mpr (hkept hinline)
    · rfl
  have hread := readWithRaw_eq h hplain offset length out
  refine ⟨⟨fun hreads hinline => ?_, fun hlength => ⟨?_, fun hsums => ?_⟩⟩,
    fun hsums => readWithRawVerified_eq h hsums hplain offset length out, ?_⟩
  · have heq := Except.ok.inj (hread.symm.trans hreads.unverified)
    rw [if_pos hinline] at heq
    exact readOf_length.mp heq
  · rw [hread, hkept hlength]
  · rw [readWithRawVerified_eq h hsums hplain, hread, hkept hlength]
  · intro fs' d' inode' raw' content' nodes' h' hplain' hsize hsame hlength hlength'
    rw [hread, readWithRaw_eq h' hplain', hkept hlength, hkept hlength', hsize]
    have hbytes : content'.read offset (min (min length out.length) (inode.size - offset)) =
        content.read offset (min (min length out.length) (inode.size - offset)) :=
      Image.read_congr _ _ _ _ fun p _ hp => hsame p (by omega)
    rw [readOf, readOf, hbytes]

end Files

def blankDisk : Disk := ⟨65 * 1024, fun _ => 0⟩

/-- A file of ten bytes in `i_block`. -/
def tenBytesRaw : Bytes := copyAll (List.replicate 128 0) [(0x00, u16le 0x81A4), (0x04, u32le 10),
  (0x1A, u16le 1), (0x20, u32le inodeFlagInlineData), (0x28, [1, 2, 3, 4, 5, 6, 7, 8, 9, 10])]

def tenBytes : Inode where
  mode := 0x81A4
  size := 10
  linksCount := 1
  blocks := 0
  flags := inodeFlagInlineData
  block := slice tenBytesRaw 0x28 60
  generation := 0
  fileAcl := 0

example : Inode.parse tenBytesRaw = .ok tenBytes := by decide +kernel

theorem tenBytes_fileOn : FileOn Mount.twoGroups.fs blankDisk tenBytes tenBytesRaw
    (fun i => (tenBytes.block ++ []).getD i 0) [] :=
  .inline [] (by decide) (by decide) (fun hlarge => absurd hlarge (by decide))

/-- Four bytes asked for with room for eight, and eight are read. -/
theorem tenBytes_overread : ¬ ∀ (fs : Filesystem) (d : Disk) (inode : Inode) (raw : Bytes)
    (content : Image)
    (nodes : List Nat), FileOn fs d inode raw content nodes → inode.flags &&& inodeFlagEncrypt = 0 →
      ∀ (csum : Checksummer) (ino : UInt32) (offset length : Nat) (out : Bytes),
        ReadsTheFile linuxCrc32c csum fs d ino inode raw content nodes offset length out := by
  intro hall
  have hreads := hall _ _ _ _ _ _ tenBytes_fileOn (by decide) ⟨0, false⟩ 12 0 4 (List.replicate 8 0)
  have hread := readWithRaw_eq tenBytes_fileOn (by decide) 0 4 (List.replicate 8 0)
  have heq := Except.ok.inj (hread.symm.trans hreads.unverified)
  rw [if_pos (by decide)] at heq
  exact absurd (readOf_length.mp heq) (by decide)

/-- A file of six blocks: two behind an extent, a hole, and one that was never written. -/
def sixBlocks : Inode where
  mode := 0x81A4
  size := 6 * 1024
  linksCount := 1
  blocks := 8
  flags := inodeFlagExtents
  block := Extent.twoExtentsRoot
  generation := 0
  fileAcl := 0

def sixBlocksDisk : Disk := { Extent.twoExtentsDisk with size := 65 * 1024 }

theorem sixBlocks_wellFormed : WellFormed 1024 (nodeOn sixBlocksDisk 1024) sixBlocks.block
    Extent.twoExtentsTree := by
  refine Extent.twoExtents_wellFormed.congr fun b hb => ?_
  obtain rfl : b = 3 := List.mem_singleton.mp hb
  rfl

theorem sixBlocks_fileOn : FileOn Mount.twoGroups.fs sixBlocksDisk sixBlocks []
    (contentOf Mount.twoGroups.fs sixBlocksDisk (extentMap Extent.twoExtentsTree.entries))
    Extent.twoExtentsTree.addresses := by
  refine .extents Extent.twoExtentsTree (by decide) (by decide) sixBlocks_wellFormed ?_ (by decide)
  intro logical p hmap
  unfold extentMap at hmap
  cases hfind : Extent.twoExtentsTree.entries.find?
    (covers Extent.logicalBlock Extent.length logical) with
  | none =>
    rw [hfind] at hmap
    cases hmap
  | some e =>
    rw [hfind] at hmap
    have hmem : e ∈ Extent.twoExtents := List.mem_of_find?_eq_some hfind
    have hcovers := covers_iff.mp (List.find?_some hfind)
    simp only [Extent.twoExtents, List.mem_cons, List.not_mem_nil, or_false] at hmem
    obtain rfl | rfl := hmem
    · have hp := Option.some.inj hmap
      simp only [Extent.map] at hp
      change 0 ≤ logical ∧ logical < 0 + 2 at hcovers
      change (p + 1) * 1024 ≤ 65 * 1024
      omega
    · cases hmap

theorem readsTheFile_sixBlocks :
    ReadsTheFile linuxCrc32c ⟨0, false⟩ Mount.twoGroups.fs sixBlocksDisk 12 sixBlocks []
      (contentOf Mount.twoGroups.fs sixBlocksDisk (extentMap Extent.twoExtentsTree.entries))
      Extent.twoExtentsTree.addresses 1000 100 (List.replicate 200 7) ∧
    readWithRawVerified Mount.twoGroups.fs sixBlocksDisk sixBlocks linuxCrc32c ⟨0, false⟩
      [] 12 1000 100 (List.replicate 200 7) =
      readWithRaw Mount.twoGroups.fs sixBlocksDisk sixBlocks [] 1000 100
        (List.replicate 200 7) := by
  obtain ⟨hreads, hagree, -⟩ := readsTheFile_iff sixBlocks_fileOn (by decide) linuxCrc32c
    ⟨0, false⟩ 12 1000 100 (List.replicate 200 7)
  exact ⟨hreads.mpr (fun hinline => absurd hinline (by decide)), hagree (fun _ _ => rfl)⟩

end FsExt4.FileIo
