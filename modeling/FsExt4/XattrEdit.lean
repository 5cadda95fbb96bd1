import FsExt4.Hash
import FsExt4.Lib.Chunks
import FsExt4.Xattr

namespace FsExt4.Xattr

open Lib

def stripFront (front name : Bytes) : Option Bytes :=
  if front.isPrefixOf name then some (name.drop front.length) else none

/-- The first prefix of the table that opens the name, and what follows it. -/
def splitQualifiedName (name : Bytes) : Option (UInt8 × Bytes) :=
  namePrefixes.findSome? (fun p => (stripFront p.2 name).map (fun rest => (UInt8.ofNat p.1, rest)))

structure DecodedEntry where
  nameIndex : UInt8
  nameBytes : Bytes
  value : Bytes
  valueInum : UInt32
  deriving DecidableEq

namespace DecodedEntry

def key (e : DecodedEntry) : UInt8 × Bytes := (e.nameIndex, e.nameBytes)

def is (nameIndex : UInt8) (suffix : Bytes) (e : DecodedEntry) : Bool :=
  e.nameIndex == nameIndex && e.nameBytes == suffix

def entryPadded (e : DecodedEntry) : Nat := (16 + e.nameBytes.length + 3) / 4 * 4

def valuePadded (e : DecodedEntry) : Nat := (e.value.length + 3) / 4 * 4

end DecodedEntry

def neededEntries (entries : List DecodedEntry) : Nat := (entries.map (·.entryPadded)).sum

def neededValues (entries : List DecodedEntry) : Nat :=
  ((entries.filter (fun e => !e.value.isEmpty)).map (·.valuePadded)).sum

def eaInodeRefusal : String :=
  "this inode has an extended attribute whose value lives in an EA inode; " ++
    "rewriting the attribute area would orphan it"

def refuseIfAnyEaInodeBacked (entries : List DecodedEntry) : Result Unit :=
  if entries.any (fun e => e.valueInum != 0) then .error (.unsupported eaInodeRefusal) else .ok ()

/-- The entries from `pos` to the zero word that ends them or the end of `buf`. -/
def decodeFrom (buf : Bytes) (nameOverruns outOfRange : String) :
    Nat → Nat → Result (List DecodedEntry)
  | 0, _ => .ok []
  | fuel + 1, pos => do
    if buf.length < pos + 16 ∨ u32leAt buf pos = 0 then return []
    let nameLen := (buf.getD pos 0).toNat
    if buf.length < pos + 16 + nameLen then throw (.corrupt nameOverruns)
    let value ← valueAt buf outOfRange pos
    let rest ← decodeFrom buf nameOverruns outOfRange fuel (pos + (16 + nameLen + 3) / 4 * 4)
    return {
      nameIndex := buf.getD (pos + 1) 0
      nameBytes := slice buf (pos + 16) nameLen
      value := value
      valueInum := u32leAt buf (pos + 4) } :: rest

def decodeInInodeEntries (entriesBuf : Bytes) : Result (List DecodedEntry) :=
  decodeFrom entriesBuf "xattr entry name overruns region" "xattr value out of range"
    entriesBuf.length 0

def decodeExternalBlockEntries (block : Bytes) : Result (List DecodedEntry) :=
  if block.length < 32 then .error (.corrupt "xattr block too small")
  else
    decodeFrom block "xattr entry name overruns block" "xattr block value out of range"
      block.length 32

/-- `e_hash`: the name's bytes and then the value's words folded in. -/
def entryHash (name value : Bytes) : UInt32 :=
  let afterName := name.foldl (fun acc b => Hash.rotateLeft acc 5 ^^^ b.toUInt32) 0
  (chunks 4 value).foldl (fun acc piece => Hash.rotateLeft acc 16 ^^^ UInt32.ofNat (ofLe piece))
    afterName

/-- `h_hash`: zero when an entry's hash is. -/
def blockHash (entryHashes : List UInt32) : UInt32 :=
  if entryHashes.contains 0 then 0
  else entryHashes.foldl (fun acc hash => Hash.rotateLeft acc 16 ^^^ hash) 0

def DecodedEntry.hash (e : DecodedEntry) : UInt32 := entryHash e.nameBytes e.value

def inInodeOrder : DecodedEntry → DecodedEntry → Ordering :=
  compareLex (compareOn (·.nameIndex)) (compareOn (·.nameBytes))

/-- The order of entries in a block: namespace, then name length, then name. -/
def externalOrder : DecodedEntry → DecodedEntry → Ordering :=
  compareLex (compareOn (·.nameIndex))
    (compareLex (compareOn (·.nameBytes.length)) (compareOn (·.nameBytes)))

def sortBy (order : DecodedEntry → DecodedEntry → Ordering) (entries : List DecodedEntry) :
    List DecodedEntry :=
  entries.mergeSort (fun a b => (order a b).isLE)

/-- The fields of one entry at `cursor`; the hash is left alone in an inode. -/
def writeHeader (buf : Bytes) (cursor valueOffs : Nat) (hash : Option UInt32) (e : DecodedEntry) :
    Bytes :=
  let buf := copyAt buf cursor
    ([UInt8.ofNat e.nameBytes.length, e.nameIndex] ++ u16le (UInt16.ofNat valueOffs))
  let buf := copyAt buf (cursor + 8) (u32le (UInt32.ofNat e.value.length))
  let buf := match hash with
    | none => buf
    | some h => copyAt buf (cursor + 12) (u32le h)
  copyAt buf (cursor + 16) e.nameBytes

/-- Entries forward from one cursor, values backward from the other; `none` where the value cursor
would underflow or an index leave the buffer. -/
def writeEntries (hash : DecodedEntry → Option UInt32) :
    List DecodedEntry → Bytes → Nat → Nat → Option Bytes
  | [], buf, _, _ => some buf
  | e :: rest, buf, entryCursor, valueCursor =>
    if valueCursor < e.valuePadded then none
    else
      let valueCursor := valueCursor - e.valuePadded
      if buf.length < valueCursor + e.value.length then none
      else
        let buf := copyAt buf valueCursor e.value
        if buf.length < entryCursor + 16 + e.nameBytes.length then none
        else
          let valueOffs := if e.value.isEmpty then 0 else valueCursor
          writeEntries hash rest (writeHeader buf entryCursor valueOffs (hash e) e)
            (entryCursor + e.entryPadded) valueCursor

/-- The in-inode region with these entries; callers pass at least the magic's 4 bytes. -/
def encodeInInodeEntries (region : Bytes) (entries : List DecodedEntry) : Option Bytes :=
  let areaLen := region.length - 4
  (writeEntries (fun _ => none) (sortBy inInodeOrder entries) (List.replicate areaLen 0) 0
    areaLen).map (u32le xattrMagic ++ ·)

/-- The external block with these entries; callers pass at least the header's 32 bytes. -/
def encodeExternalBlock (block : Bytes) (entries : List DecodedEntry) (refcount : UInt32) :
    Option Bytes :=
  let sorted := sortBy externalOrder entries
  let buf := copyAt (List.replicate block.length 0) 0
    (u32le xattrMagic ++ (u32le refcount ++ u32le 1))
  (writeEntries (fun e => some e.hash) sorted buf 32 block.length).map
    (fun buf => copyAt buf 12 (u32le (blockHash (sorted.map (·.hash)))))

inductive RemoveOutcome where
  | removed
  | notFound
  deriving DecidableEq

inductive BlockRemoveOutcome where
  | removed
  | removedNowEmpty
  | notFound
  deriving DecidableEq

inductive SetOutcome where
  | inserted
  | replaced
  deriving DecidableEq

def survivors (nameIndex : UInt8) (suffix : Bytes) (entries : List DecodedEntry) :
    List DecodedEntry :=
  entries.filter (fun e => !e.is nameIndex suffix)

def assign (nameIndex : UInt8) (suffix value : Bytes) :
    List DecodedEntry → List DecodedEntry × SetOutcome
  | [] => ([⟨nameIndex, suffix, value, 0⟩], .inserted)
  | e :: rest =>
    if e.is nameIndex suffix then ({ e with value := value } :: rest, .replaced)
    else
      let (rest, outcome) := assign nameIndex suffix value rest
      (e :: rest, outcome)

def noNamespace : Error := .invalidArgument "xattr name missing known namespace prefix"

def checkSetName (name : Bytes) : Result (UInt8 × Bytes) :=
  match splitQualifiedName name with
  | none => .error noNamespace
  | some (nameIndex, suffix) =>
    if suffix.isEmpty ∧ ¬ (nameIndex = 2 ∨ nameIndex = 3) then
      .error (.invalidArgument "xattr name suffix is empty")
    else if 255 < suffix.length then .error .nameTooLong
    else .ok (nameIndex, suffix)

def editable (decoded : Result (List DecodedEntry)) : Result (List DecodedEntry) := do
  let entries ← decoded
  refuseIfAnyEaInodeBacked entries
  return entries

/-- The result and the bytes it leaves; `none` where the code would panic. -/
def planRemoveInInodeRegion (region name : Bytes) : Option (Result RemoveOutcome × Bytes) :=
  match splitQualifiedName name with
  | none => some (.error noNamespace, region)
  | some (nameIndex, suffix) =>
    if region.length < 4 ∨ u32leAt region 0 ≠ xattrMagic then some (.ok .notFound, region)
    else
      match editable (decodeInInodeEntries (region.drop 4)) with
      | .error e => some (.error e, region)
      | .ok entries =>
        let kept := survivors nameIndex suffix entries
        if kept.length = entries.length then some (.ok .notFound, region)
        else (encodeInInodeEntries region kept).map (fun bytes => (.ok .removed, bytes))

def planSetInInodeRegion (region name value : Bytes) : Option (Result SetOutcome × Bytes) :=
  match checkSetName name with
  | .error e => some (.error e, region)
  | .ok (nameIndex, suffix) =>
    if region.length < 8 then some (.error .noSpaceLeftOnDevice, region)
    else
      match editable (if u32leAt region 0 = xattrMagic then decodeInInodeEntries (region.drop 4)
          else .ok []) with
      | .error e => some (.error e, region)
      | .ok entries =>
        let (entries, outcome) := assign nameIndex suffix value entries
        if region.length - 4 < neededEntries entries + 4 + neededValues entries then
          some (.error .noSpaceLeftOnDevice, region)
        else (encodeInInodeEntries region entries).map (fun bytes => (.ok outcome, bytes))

def planSetInExternalBlock (block name value : Bytes) (refcount : UInt32) :
    Option (Result SetOutcome × Bytes) :=
  match checkSetName name with
  | .error e => some (.error e, block)
  | .ok (nameIndex, suffix) =>
    if block.length < 0x40 then some (.error .noSpaceLeftOnDevice, block)
    else
      match editable (if u32leAt block 0 = xattrMagic then decodeExternalBlockEntries block
          else .ok []) with
      | .error e => some (.error e, block)
      | .ok entries =>
        let (entries, outcome) := assign nameIndex suffix value entries
        if block.length - 0x20 < neededEntries entries + 4 + neededValues entries then
          some (.error .noSpaceLeftOnDevice, block)
        else (encodeExternalBlock block entries refcount).map (fun bytes => (.ok outcome, bytes))

def planRemoveFromExternalBlock (block name : Bytes) (refcount : UInt32) :
    Option (Result BlockRemoveOutcome × Bytes) :=
  match splitQualifiedName name with
  | none => some (.error noNamespace, block)
  | some (nameIndex, suffix) =>
    if block.length < 0x20 ∨ u32leAt block 0 ≠ xattrMagic then some (.ok .notFound, block)
    else
      match editable (decodeExternalBlockEntries block) with
      | .error e => some (.error e, block)
      | .ok entries =>
        let kept := survivors nameIndex suffix entries
        if kept.length = entries.length then some (.ok .notFound, block)
        else if kept.isEmpty then some (.ok .removedNowEmpty, block)
        else (encodeExternalBlock block kept refcount).map (fun bytes => (.ok .removed, bytes))

end FsExt4.Xattr
