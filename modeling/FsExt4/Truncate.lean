import FsExt4.ExtentTree
import Mathlib.Data.List.Sort

namespace FsExt4

open Lib

structure SizeChange where
  oldSize : Nat
  newSize : Nat
  deriving DecidableEq

inductive ExtentMutation where
  | writeRoot (bytes : Bytes)
  | writeTreeBlock (block : Nat) (bytes : Bytes)
  | freePhysicalRun (start len : Nat)
  deriving DecidableEq

structure ShrinkWalk where
  visited : List Nat
  physical : List (Nat × Nat)
  logicalEnd : Nat
  mutations : List ExtentMutation

/-- A node's own part of the walk: its bytes so far and the slots kept in them, the first key kept
and the index key read last. -/
structure ShrinkNode where
  bytes : Bytes
  kept : Nat
  first : Option Nat
  previousIndex : Option Nat

namespace ShrinkWalk

section Walk

variable (stop blockSize blocksCount : Nat) (read : NodeReader)

def keep (stop : Nat) (e : Extent) : Nat := min (stop - e.logicalBlock) e.length

def leafSlot (encoded : Bytes) (w : ShrinkWalk) : Result (Option (Bytes × Nat) × ShrinkWalk) := do
  let extent ← Extent.parse encoded
  let physicalEnd := extent.physicalBlock + extent.length
  if extent.length = 0 ∨ extent.logicalBlock < w.logicalEnd ∨
      2 ^ 32 < extent.logicalBlock + extent.length ∨ extent.physicalBlock = 0 ∨
      blocksCount < physicalEnd then
    throw (.corruptExtentTree "invalid or overlapping leaf extent")
  let kept := keep stop extent
  let w := { w with
    logicalEnd := extent.logicalBlock + extent.length
    physical := w.physical ++ [(extent.physicalBlock, physicalEnd)]
    mutations := w.mutations ++
      if kept < extent.length then
        [.freePhysicalRun (extent.physicalBlock + kept) (extent.length - kept)]
      else [] }
  if kept = 0 then return (none, w)
  let encodedLen := kept + if extent.uninitialized then extInitMaxLen else 0
  return (some (copyAt encoded 4 (u16le (UInt16.ofNat encodedLen)), extent.logicalBlock), w)

def indexSlot (below : Bytes → ShrinkWalk → Result ((Bytes × Option Nat) × ShrinkWalk))
    (previousIndex : Option Nat) (encoded : Bytes) (w : ShrinkWalk) :
    Result (Option (Bytes × Nat) × ExtentIdx × ShrinkWalk) := do
  let child ← ExtentIdx.parse encoded
  if (∃ prior ∈ previousIndex, child.logicalBlock ≤ prior) ∨ child.leafBlock = 0 ∨
      blocksCount ≤ child.leafBlock ∨ child.leafBlock ∈ w.visited then
    throw (.corruptExtentTree "invalid or repeated extent index")
  let w := { w with
    visited := w.visited ++ [child.leafBlock]
    physical := w.physical ++ [(child.leafBlock, child.leafBlock + 1)] }
  let node ← read child.leafBlock
  if node.length ≠ blockSize then
    throw (.corruptExtentTree "short extent node read")
  let childHeader ← ExtentHeader.parse node
  if childHeader.entries = 0 ∨ (u32leAt node 12).toNat ≠ child.logicalBlock then
    throw (.corruptExtentTree "extent index does not match its child")
  let ((updated, childFirst), w) ← below node w
  match childFirst with
  | none =>
    return (none, child, { w with
      mutations := w.mutations ++ [.freePhysicalRun child.leafBlock 1] })
  | some childFirst =>
    return (some (copyAt encoded 0 (u32le (UInt32.ofNat childFirst)), childFirst), child, { w with
      mutations := w.mutations ++
        if updated ≠ node then [.writeTreeBlock child.leafBlock updated] else [] })

def ShrinkNode.take (s : ShrinkNode) : Option (Bytes × Nat) → ShrinkNode
  | none => s
  | some (encoded, key) => { s with
      bytes := copyAt s.bytes (Extent.entryOffset s.kept) encoded
      kept := s.kept + 1
      first := s.first.or (some key) }

def leafSlots (original : Bytes) : List Nat → ShrinkNode → ShrinkWalk →
    Result (ShrinkNode × ShrinkWalk)
  | [], s, w => .ok (s, w)
  | i :: rest, s, w => do
    let (kept, w) ← leafSlot stop blocksCount (slice original (Extent.entryOffset i) nodeSize) w
    leafSlots original rest (ShrinkNode.take s kept) w

def indexSlots (below : Bytes → ShrinkWalk → Result ((Bytes × Option Nat) × ShrinkWalk))
    (original : Bytes) : List Nat → ShrinkNode → ShrinkWalk → Result (ShrinkNode × ShrinkWalk)
  | [], s, w => .ok (s, w)
  | i :: rest, s, w => do
    let (kept, child, w) ← indexSlot blockSize blocksCount read below s.previousIndex
      (slice original (Extent.entryOffset i) nodeSize) w
    indexSlots below original rest
      { ShrinkNode.take s kept with previousIndex := some child.logicalBlock } w

/-- `ShrinkWalk::node`: the node without what lies at or past the new end, and the first key
left. -/
def node : (depth : Nat) → Bytes → Bool → ShrinkWalk → Result ((Bytes × Option Nat) × ShrinkWalk)
  | depth, original, inline, w => do
    let header ← ExtentHeader.parse original
    let body := original.length - if inline then 0 else 4
    if header.depth ≠ depth ∨ header.max = 0 ∨ body < nodeSize * (1 + header.max) then
      throw (.corruptExtentTree "invalid extent node depth or capacity")
    let (s, w) ←
      match depth with
      | 0 => leafSlots stop blocksCount original (List.range header.entries) ⟨original, 0,
          none, none⟩ w
      | depth + 1 =>
        indexSlots blockSize blocksCount read (fun child w => node depth child false w) original
          (List.range header.entries) ⟨original, 0, none, none⟩ w
    return ((copyAt s.bytes 2 (u16le (UInt16.ofNat s.kept)), s.first), w)

end Walk

end ShrinkWalk

def apartInOrder : List (Nat × Nat) → Bool
  | a :: b :: rest => decide (a.2 ≤ b.1) && apartInOrder (b :: rest)
  | _ => true

/-- `sort_unstable` on pairs. -/
def sortRanges (l : List (Nat × Nat)) : List (Nat × Nat) :=
  l.insertionSort (fun a b => a.1 < b.1 ∨ (a.1 = b.1 ∧ a.2 ≤ b.2))

def planTruncateShrinkDeep (oldSize newSize : Nat) (root : Bytes) (blockSize blocksCount : Nat)
    (read : NodeReader) : Result (SizeChange × List ExtentMutation) := do
  if oldSize < newSize ∨ ¬ (1024 ≤ blockSize ∧ blockSize ≤ 65536) ∨ ¬ blockSize.isPowerOfTwo then
    throw (.invalidArgument "invalid truncate size or block size")
  let header ← ExtentHeader.parse root
  if root.length ≠ 60 ∨ extMaxDepth < header.depth then
    throw (.corruptExtentTree "invalid inline extent root")
  let stop := (newSize + blockSize - 1) / blockSize
  let ((bytes, first), w) ← ShrinkWalk.node stop blockSize blocksCount read header.depth root true
    ⟨[], [], 0, []⟩
  let bytes := if first.isNone then copyAt bytes 6 (u16le 0) else bytes
  if !apartInOrder (sortRanges w.physical) then
    throw (.corruptExtentTree "overlapping physical extent ranges")
  return (⟨oldSize, newSize⟩, .writeRoot bytes :: w.mutations)

/-- `plan_truncate_shrink`, the planner for inline roots only. An entry past the end of the root, a
panic there, is an error here. -/
def planTruncateShrink (oldSize newSize : Nat) (root : Bytes) (blockSize : Nat) :
    Result (SizeChange × List ExtentMutation) := do
  if oldSize < newSize then throw (.corrupt "plan_truncate_shrink: new_size > old_size")
  let header ← ExtentHeader.parse root
  if !header.isLeaf then
    throw (.unsupported "inline truncate planner requires an inline extent root")
  let newLogicalEnd := (newSize + blockSize - 1) / blockSize
  let entries ← parseLeafEntries root header
  let kept := entries.filterMap (fun e =>
    if e.logicalBlock + e.length ≤ newLogicalEnd then some e
    else if newLogicalEnd ≤ e.logicalBlock then none
    else some { e with length := newLogicalEnd - e.logicalBlock })
  let freed := entries.filterMap (fun e =>
    if e.logicalBlock + e.length ≤ newLogicalEnd then none
    else if newLogicalEnd ≤ e.logicalBlock then
      some (ExtentMutation.freePhysicalRun e.physicalBlock e.length)
    else some (.freePhysicalRun (e.physicalBlock + (newLogicalEnd - e.logicalBlock))
      (e.length - (newLogicalEnd - e.logicalBlock))))
  let newRoot := buildNode root.length header.max header.depth header.generation
    (kept.map encodeExtent)
  return (⟨oldSize, newSize⟩, .writeRoot newRoot :: freed)

end FsExt4
