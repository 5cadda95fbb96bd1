import FsExt4.Error

namespace FsExt4

open Lib

def extMagic : UInt16 := 0xF30A
def extInitMaxLen : Nat := 32768
def nodeSize : Nat := 12
def extMaxDepth : Nat := 5

structure ExtentHeader where
  entries : Nat
  max : Nat
  depth : Nat
  generation : UInt32
  deriving DecidableEq

def ExtentHeader.parse (raw : Bytes) : Result ExtentHeader := do
  if raw.length < nodeSize then
    throw (.corruptExtentTree "header buffer too small")
  if u16leAt raw 0x00 != extMagic then
    throw (.corruptExtentTree "bad extent header magic")
  if (u16leAt raw 0x04).toNat < (u16leAt raw 0x02).toNat then
    throw (.corruptExtentTree "entries > max")
  return {
    entries := (u16leAt raw 0x02).toNat
    max := (u16leAt raw 0x04).toNat
    depth := (u16leAt raw 0x06).toNat
    generation := u32leAt raw 0x08 }

def ExtentHeader.isLeaf (h : ExtentHeader) : Bool := h.depth == 0

structure Extent where
  logicalBlock : Nat
  length : Nat
  physicalBlock : Nat
  uninitialized : Bool
  deriving DecidableEq

def Extent.parse (raw : Bytes) : Result Extent := do
  if raw.length < nodeSize then
    throw (.corruptExtentTree "leaf extent buffer too small")
  let eeLen := (u16leAt raw 0x04).toNat
  let start := (u16leAt raw 0x06).toNat * 2 ^ 32 + (u32leAt raw 0x08).toNat
  return {
    logicalBlock := (u32leAt raw 0x00).toNat
    length := if extInitMaxLen < eeLen then eeLen - extInitMaxLen else eeLen
    physicalBlock := start
    uninitialized := decide (extInitMaxLen < eeLen) }

def Extent.contains (e : Extent) (logical : Nat) : Bool :=
  decide (e.logicalBlock ≤ logical ∧ logical < e.logicalBlock + e.length)

def Extent.map (e : Extent) (logical : Nat) : Nat := e.physicalBlock + (logical - e.logicalBlock)

structure ExtentIdx where
  logicalBlock : Nat
  leafBlock : Nat
  deriving DecidableEq

def ExtentIdx.parse (raw : Bytes) : Result ExtentIdx := do
  if raw.length < nodeSize then
    throw (.corruptExtentTree "index entry buffer too small")
  return {
    logicalBlock := (u32leAt raw 0x00).toNat
    leafBlock := (u16leAt raw 0x08).toNat * 2 ^ 32 + (u32leAt raw 0x04).toNat }

namespace Extent

def entryOffset (i : Nat) : Nat := nodeSize * (1 + i)

/-- Scan a leaf's entries for the one covering `logical`, stopping past it. -/
def scanLeaf (cursor : Bytes) (logical : Nat) : List Nat → Result (Option Extent)
  | [] => .ok none
  | i :: rest => do
    if cursor.length < entryOffset i + nodeSize then
      throw (.corruptExtentTree "leaf entry out of range")
    let ext ← Extent.parse (slice cursor (entryOffset i) nodeSize)
    if ext.contains logical then return some ext
    if logical < ext.logicalBlock then return none
    scanLeaf cursor logical rest

/-- Scan an index node: the last entry at or below `logical`, and the first entry. -/
def scanIndex (cursor : Bytes) (logical : Nat) :
    List Nat → Option ExtentIdx → Option ExtentIdx → Result (Option ExtentIdx × Option ExtentIdx)
  | [], chosen, first => .ok (chosen, first)
  | i :: rest, chosen, first => do
    if cursor.length < entryOffset i + nodeSize then
      throw (.corruptExtentTree "index entry out of range")
    let idx ← ExtentIdx.parse (slice cursor (entryOffset i) nodeSize)
    let first := first.or (some idx)
    if idx.logicalBlock ≤ logical then scanIndex cursor logical rest (some idx) first
    else return (chosen, first)

/-- The descent from a node; `descents` is how many more the root's depth allows. -/
def lookupNode (blockSize logical : Nat) (descents : Nat) (cursor : Bytes)
    (header : ExtentHeader) : DevIo (Option Extent) :=
  if header.isLeaf then
    liftM (scanLeaf cursor logical (List.range header.entries))
  else do
    let (chosen, first) ← liftM (scanIndex cursor logical (List.range header.entries) none none)
    match chosen.or first with
    | none => .fail (.corruptExtentTree "index node holds no entries")
    | some idx =>
      if 2 ^ 64 ≤ idx.leafBlock * blockSize then
        .fail (.corruptExtentTree "extent index: child block offset overflow")
      else
        let buf ← readAt (idx.leafBlock * blockSize) blockSize
        let child ← liftM (ExtentHeader.parse buf)
        match descents with
        | 0 => .fail (.corruptExtentTree "extent tree descended past claimed depth")
        | descents + 1 => lookupNode blockSize logical descents buf child

def lookup (root : Bytes) (blockSize logical : Nat) : DevIo (Option Extent) := do
  let header ← liftM (ExtentHeader.parse root)
  if extMaxDepth < header.depth then
    .fail (.corruptExtentTree "extent tree depth exceeds spec maximum")
  else
    lookupNode blockSize logical header.depth root header

def mapLogical (root : Bytes) (blockSize logical : Nat) : DevIo (Option Nat) := do
  match ← lookup root blockSize logical with
  | some ext => return (if ext.uninitialized then none else some (ext.map logical))
  | none => return none

end Extent

end FsExt4
