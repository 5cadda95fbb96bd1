import FsExt4.Error
import Mathlib.Data.List.AList

namespace FsExt4

open Lib

structure HashOrder where
  visit : List Nat → List Nat
  perm : ∀ keys, (visit keys).Perm keys

structure CacheState where
  capacity : Nat
  entries : AList (fun _ : Nat => Bytes × UInt64)
  pinned : AList (fun _ : Nat => Bytes)
  nextSeq : UInt64
  order : HashOrder

namespace CacheState

def new (capacity : Nat) (order : HashOrder) : CacheState := ⟨capacity, ∅, ∅, 0, order⟩

/-- Look up `block`: pinned wins, and a clean hit becomes the most recent entry. -/
def get (s : CacheState) (block : Nat) : Option Bytes × CacheState :=
  match s.pinned.lookup block with
  | some bytes => (some bytes, s)
  | none =>
    let seq := s.nextSeq
    let s := { s with nextSeq := seq + 1 }
    match s.entries.lookup block with
    | some slot => (some slot.1, { s with entries := s.entries.insert block (slot.1, seq) })
    | none => (none, s)

def minByKey (key : Nat → UInt64) : List Nat → Option Nat
  | [] => none
  | b :: rest =>
    match minByKey key rest with
    | none => some b
    | some m => if key m < key b then some m else some b

def lastUsed (s : CacheState) (block : Nat) : UInt64 :=
    ((s.entries.lookup block).map Prod.snd).getD 0

def victim (s : CacheState) : Option Nat := minByKey s.lastUsed (s.order.visit s.entries.keys)

def evict (s : CacheState) : CacheState :=
  if s.capacity ≤ s.entries.keys.length then
    match s.victim with
    | some v => { s with entries := s.entries.erase v }
    | none => s
  else s

/-- Insert a clean entry, evicting the least recently used one when full. -/
def insertClean (s : CacheState) (block : Nat) (bytes : Bytes) : CacheState :=
  if s.capacity = 0 then s
  else
    let s := s.evict
    { s with entries := s.entries.insert block (bytes, s.nextSeq), nextSeq := s.nextSeq + 1 }

def put (s : CacheState) (block : Nat) (bytes : Bytes) : CacheState :=
  if block ∈ s.pinned then { s with pinned := s.pinned.insert block bytes }
  else s.insertClean block bytes

def pin (s : CacheState) (block : Nat) (bytes : Bytes) : CacheState :=
  { s with entries := s.entries.erase block, pinned := s.pinned.insert block bytes }

def drain (s : CacheState) : List (Nat × Bytes) :=
  (s.order.visit s.pinned.keys).filterMap (fun b => (s.pinned.lookup b).map (b, ·))

def unpinAll (s : CacheState) : CacheState :=
  s.drain.foldl (fun s e => s.insertClean e.1 e.2) { s with pinned := ∅ }

def overlayPinned (s : CacheState) (bs offset : Nat) : List Nat → Bytes → Bytes
  | [], buf => buf
  | block :: rest, buf =>
    match s.pinned.lookup block with
    | none => overlayPinned s bs offset rest buf
    | some img =>
      let blockStart := block * bs
      let start := max offset blockStart
      let stop := min (offset + buf.length) (blockStart + bs)
      overlayPinned s bs offset rest
        (copyAt buf (start - offset) (slice img (start - blockStart) (stop - start)))

def blockRange (first stop : Nat) : List Nat := List.range' first (stop - first)

/-- A partial write of block `b`: onto its pinned image if it has one, and its clean entry goes. -/
def patchBlock (s : CacheState) (bs offset : Nat) (buf : Bytes) (b : Nat) : CacheState :=
  let blockStart := b * bs
  let writeStart := max offset blockStart
  let writeEnd := min (offset + buf.length) (blockStart + bs)
  let pinned := match s.pinned.lookup b with
    | some img => s.pinned.insert b
        (copyAt img (writeStart - blockStart)
          (slice buf (writeStart - offset) (writeEnd - writeStart)))
    | none => s.pinned
  { s with pinned, entries := s.entries.erase b }

/-- The lock-held end of `write_at`, once the device has the bytes. -/
def finishWrite (s : CacheState) (bs offset : Nat) (buf : Bytes) : CacheState :=
  if offset % bs = 0 ∧ buf.length = bs then s.put (offset / bs) buf
  else
    let firstBlock := offset / bs
    let lastBlock := (offset + buf.length - 1) / bs
    (blockRange firstBlock (lastBlock + 1)).foldl (fun s b => s.patchBlock bs offset buf b) s

end CacheState

structure CachedDevice where
  inner : Disk
  blockSize : Nat
  state : CacheState

namespace CachedDevice

def new (inner : Disk) (blockSize capacity : Nat) (order : HashOrder) : CachedDevice :=
  ⟨inner, blockSize, CacheState.new capacity order⟩

def innerRead (d : Disk) (off len : Nat) : Result Bytes := (BlockDevice.readAt off len d).1

def readAt (self : CachedDevice) (offset len : Nat) : Result Bytes × CachedDevice :=
  let bs := self.blockSize
  let block := offset / bs
  let offInBlock := offset % bs
  if offInBlock + len ≤ bs then
    match self.state.get block with
    | (some blk, state) => (.ok (slice blk offInBlock len), { self with state })
    | (none, state) =>
      match innerRead self.inner (block * bs) bs with
      | .error e => (.error e, { self with state })
      | .ok blk => (.ok (slice blk offInBlock len), { self with state := state.put block blk })
  else
    match innerRead self.inner offset len with
    | .error e => (.error e, self)
    | .ok buf =>
      let blocks := CacheState.blockRange block ((offset + len + bs - 1) / bs)
      (.ok (self.state.overlayPinned bs offset blocks buf), self)

def writeAt (self : CachedDevice) (offset : Nat) (buf : Bytes) : Result Unit × CachedDevice :=
  match (BlockDevice.writeAt offset buf self.inner : Result Unit × Disk) with
  | (.error e, _) => (.error e, self)
  | (.ok (), inner) =>
    (.ok (), { self with inner, state := self.state.finishWrite self.blockSize offset buf })

def populateCache (self : CachedDevice) (block : Nat) (bytes : Bytes) : CachedDevice :=
  { self with state := self.state.pin block bytes }

def unpinAll (self : CachedDevice) : CachedDevice := { self with state := self.state.unpinAll }

def invalidateCache (self : CachedDevice) : Result Unit × CachedDevice :=
  if self.state.pinned.keys ≠ [] then
    (.error (.corrupt "cache contains uncheckpointed journal metadata"), self)
  else (.ok (), { self with state := { self.state with entries := ∅ } })

instance : BlockDevice Error CachedDevice where
  readAt off len self := self.readAt off len
  writeAt off data self := self.writeAt off data
  flush self := (.ok (), self)
  populateCache block bytes self := self.populateCache block bytes

end CachedDevice

end FsExt4
