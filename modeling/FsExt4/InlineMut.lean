import FsExt4.DirBlockEdits
import FsExt4.FileReads
import FsExt4.Lib.Seal
import FsExt4.XattrAreas

namespace FsExt4

open Lib

namespace InlineMut

/-- Bytes of inline data that `i_block` holds. -/
def iBlockLen : Nat := 60

def ceiling (inodeSize : Nat) : Nat := iBlockLen + inodeSize

/-- The attribute area of an image, from its magic to the end of the inode. -/
def attrArea (raw : Bytes) (inodeSize : Nat) : Option (Nat × Nat) :=
  if raw.length < 0x82 then none
  else
    let extra := (u16leAt raw 0x80).toNat
    let start := 128 + extra
    let stop := min inodeSize raw.length
    if extra ≠ 0 ∧ start + 8 ≤ stop then some (start, stop) else none

def zeroIBlock (raw : Bytes) : Bytes := copyAt raw 0x28 (List.replicate 60 0)

/-- The result, and the image that is left; `none` where the code would panic. -/
def store (raw : Bytes) (inodeSize : Nat) (data : Bytes) : Option (Result Unit × Bytes) :=
  if ceiling inodeSize < data.length then some (.error .noSpaceLeftOnDevice, raw)
  else
    match attrArea raw inodeSize with
    | none => some (.error .noSpaceLeftOnDevice, raw)
    | some (start, stop) =>
      let head := min data.length iBlockLen
      match Xattr.planSetInInodeRegion (slice raw start (stop - start)) Xattr.systemData
        (data.drop head) with
      | none => none
      | some (.error e, _) => some (.error e, raw)
      | some (.ok _, region) =>
        some (.ok (), copyAt (zeroIBlock (copyAt raw start region)) 0x28 (data.take head))

def clearInlineFlag (raw : Bytes) : Bytes :=
  copyAt raw 0x20 (u32le (u32leAt raw 0x20 &&& ~~~inodeFlagInlineData))

def strip (raw : Bytes) (inodeSize : Nat) : Option (Result Unit × Bytes) :=
  if raw.length < 0x64 then none
  else
    match attrArea raw inodeSize with
    | none => some (.ok (), zeroIBlock (clearInlineFlag raw))
    | some (start, stop) =>
      match Xattr.planRemoveInInodeRegion (slice raw start (stop - start)) Xattr.systemData with
      | none => none
      | some (.error e, region) => some (.error e, copyAt raw start region)
      | some (.ok _, region) =>
          some (.ok (), zeroIBlock (clearInlineFlag (copyAt raw start region)))

/-- Both words of `i_size`. -/
def setSize (raw : Bytes) (size : Nat) : Bytes :=
  copyAt (copyAt raw 0x04 (u32le (UInt32.ofNat (size % 2 ^ 32)))) 0x6C
    (u32le (UInt32.ofNat (size / 2 ^ 32)))

end InlineMut

namespace Dir

section InPlace

variable {inode : UInt32} {name : Bytes} {fileType : DirEntryType} {hasFileType : Bool}

theorem length_addEntryInPlace (reservedTail : Nat) (buf : Bytes) :
    (addEntryInPlace inode name fileType hasFileType reservedTail buf).2.length = buf.length := by
  rw [addEntryInPlace_eq]
  cases hadd : addEntryToBlock buf inode name fileType hasFileType reservedTail with
  | error e => rfl
  | ok new => exact (addEntryToBlock_edited hadd).length

theorem length_removeEntryInPlace (reservedTail : Nat) (buf : Bytes) :
    (removeEntryInPlace name hasFileType reservedTail buf).2.length = buf.length := by
  rw [removeEntryInPlace_eq]
  cases hremove : removeEntryFromBlock buf name hasFileType reservedTail with
  | error e => rfl
  | ok found =>
    cases found with
    | none => rfl
    | some new => exact (removeEntryFromBlock_edited hremove).length

end InPlace

end Dir

/-- An inline directory, as its inode holds it: the parent, the 56 bytes of `i_block` behind it, and
the value of the attribute. -/
structure InlineDir where
  parent : UInt32
  head : Bytes
  continuation : Bytes
  head_length : head.length = 56

namespace InlineDir

open Dir InlineMut

def minContinuation : Nat := entryRecLen 1

/-- `inode` was parsed from the image, which has at least the bytes of a base inode. -/
def load (inode : Inode) (raw : Bytes) (hraw : inodeBaseSize ≤ raw.length)
    (inodeSize blockSize : Nat) :
    DevIo InlineDir := do
  let continuation ← InlineData.dirContinuation inode raw inodeSize blockSize
  return {
    parent := u32leAt raw 0x28
    head := slice raw 0x2C 56
    continuation := continuation
    head_length := length_slice_of_le raw 0x2C 56 (Nat.le_trans (by decide) hraw) }

section Edit

variable (dir : InlineDir)

def entries (hasFileType : Bool) : Result (List DirEntry) := do
  let inBlock ← parseBlock dir.head hasFileType
  let continued ← parseBlock dir.continuation hasFileType
  return inBlock ++ continued

/-- The directory with `i_block` after an edit of it. -/
def inHead {α : Type} (edit : Result α × Bytes) (hedit : edit.2.length = dir.head.length) :
    Result α × InlineDir :=
  (edit.1, { dir with head := edit.2, head_length := hedit.trans dir.head_length })

def inContinuation {α : Type} (edit : Result α × Bytes) : Result α × InlineDir :=
  (edit.1, { dir with continuation := edit.2 })

def add (ino : UInt32) (name : Bytes) (fileType : DirEntryType) (hasFileType : Bool) :
    Result Bool × InlineDir :=
  match dir.inHead (addEntryInPlace ino name fileType hasFileType 0 dir.head)
      (length_addEntryInPlace 0 dir.head) with
  | (.ok (), dir) => (.ok true, dir)
  | (.error .outOfBounds, dir) =>
    match dir.inContinuation (addEntryInPlace ino name fileType hasFileType 0 dir.continuation) with
    | (.ok (), dir) => (.ok true, dir)
    | (.error .outOfBounds, dir) => (.ok false, dir)
    | (.error e, dir) => (.error e, dir)
  | (.error e, dir) => (.error e, dir)

def remove (name : Bytes) (hasFileType : Bool) : Result Bool × InlineDir :=
  match dir.inHead (removeEntryInPlace name hasFileType 0 dir.head)
      (length_removeEntryInPlace 0 dir.head) with
  | (.ok true, dir) => (.ok true, dir)
  | (.ok false, dir) => dir.inContinuation (removeEntryInPlace name hasFileType 0 dir.continuation)
  | (.error e, dir) => (.error e, dir)

/-- A value of `len` bytes can be set in the region; a set never panics. -/
def fits (region : Bytes) (len : Nat) : Bool :=
  match Xattr.planSetInInodeRegion region Xattr.systemData (List.replicate len 0) with
  | some (.ok _, _) => true
  | _ => false

def largestFit (region : Bytes) : Nat → Nat → Nat → Nat
  | 0, lo, _ => lo
  | turns + 1, lo, hi =>
    if lo + 1 < hi then
      let mid := (lo + hi) / 2
      if fits region (mid * 4) then largestFit region turns mid hi else largestFit region
        turns lo mid
    else lo

def emptyRecord (len : Nat) : Bytes := copyAt (List.replicate len 0) 4 (u16le (UInt16.ofNat len))

def expand (raw : Bytes) (inodeSize : Nat) : Bool × InlineDir :=
  if !dir.continuation.isEmpty then (false, dir)
  else
    match attrArea raw inodeSize with
    | none => (false, dir)
    | some (start, stop) =>
      let hi := (stop - start) / 4 + 1
      let len := largestFit (slice raw start (stop - start)) hi 0 hi * 4
      if len < minContinuation ∨ 2 ^ 16 ≤ len then (false, dir)
      else (true, { dir with continuation := emptyRecord len })

def store (raw : Bytes) (inodeSize : Nat) : Option (Result Unit × Bytes) :=
  match attrArea raw inodeSize with
  | none => some (.error (.corrupt "inline directory without an in-inode attribute area"), raw)
  | some (start, stop) =>
    match Xattr.planSetInInodeRegion (slice raw start (stop - start)) Xattr.systemData
      dir.continuation with
    | none => none
    | some (.error e, _) => some (.error e, raw)
    | some (.ok _, region) =>
      let raw := copyAt (copyAt (copyAt raw start region) 0x28 (u32le dir.parent)) 0x2C dir.head
      some (.ok (), setSize raw (iBlockLen + dir.continuation.length))

end Edit

end InlineDir

end FsExt4
