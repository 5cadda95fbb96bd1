import FsExt4.Error

namespace FsExt4.Jbd2

open Lib

abbrev Crc := UInt32 → Bytes → UInt32

def crc32cBit (c : Nat) : Nat := if c % 2 = 1 then (c / 2) ^^^ 0x82F63B78 else c / 2

def crc32cByte (c : Nat) (b : UInt8) : Nat := Nat.iterate crc32cBit 8 (c ^^^ b.toNat)

-- matching on the running value makes every byte's step evaluate it
def crc32cFrom : Bytes → Nat → Nat
  | [], c => c
  | b :: rest, 0 => crc32cFrom rest (crc32cByte 0 b)
  | b :: rest, c + 1 => crc32cFrom rest (crc32cByte (c + 1) b)

def linuxCrc32c : Crc := fun seed data => UInt32.ofNat (crc32cFrom data seed.toNat)

example : linuxCrc32c 0xFFFFFFFF [0x31, 0x32, 0x33, 0x34, 0x35, 0x36, 0x37, 0x38, 0x39] ^^^
    0xFFFFFFFF = 0xE3069283 := by decide

def magicNumber : UInt32 := 0xc03b3998

def descriptorBlock : UInt32 := 1
def commitBlock : UInt32 := 2
def superblockV1 : UInt32 := 3
def superblockV2 : UInt32 := 4
def revokeBlock : UInt32 := 5

def incompatRevoke : UInt32 := 0x1
def incompatBit64 : UInt32 := 0x2
def incompatCsumV2 : UInt32 := 0x8
def incompatCsumV3 : UInt32 := 0x10

def featureCompatChecksum : UInt32 := 0x1
def crc32cChksum : UInt8 := 4

def supportedJbdIncompat : UInt32 :=
  incompatRevoke ||| incompatBit64 ||| incompatCsumV2 ||| incompatCsumV3

def blockTailBytes : Nat := 4
def commitChecksumAt : Nat := 16

structure JournalSuperblock where
  blockType : UInt32
  headerSequence : UInt32
  blockSize : UInt32
  maxLen : UInt32
  first : UInt32
  sequence : UInt32
  start : UInt32
  errno : UInt32
  featureCompat : UInt32
  featureIncompat : UInt32
  featureRoCompat : UInt32
  uuid : Bytes
  nrUsers : UInt32
  checksumType : UInt8
  numFcBlocks : UInt32
  checksum : UInt32
  deriving DecidableEq

namespace JournalSuperblock

variable (jsb : JournalSuperblock)

def isClean : Bool := jsb.start == 0

def has (bit : UInt32) : Bool := jsb.featureIncompat &&& bit != 0

def usesCsumV3 : Bool := jsb.has incompatCsumV3

def usesCsumV2OrV3 : Bool := jsb.has (incompatCsumV2 ||| incompatCsumV3)

def uses64bit : Bool := jsb.has incompatBit64

def unsupportedIncompat : UInt32 := jsb.featureIncompat &&& ~~~supportedJbdIncompat

def checksumDeclarationError : Option String :=
  let commitOnly := jsb.featureCompat &&& featureCompatChecksum != 0
  match jsb.has incompatCsumV2, jsb.has incompatCsumV3 with
  | false, false => none
  | true, true => some "journal declares both CSUM_V2 and CSUM_V3"
  | _, _ =>
    if commitOnly then some "journal declares v1 checksums alongside CSUM_V2/V3"
    else if jsb.checksumType != crc32cChksum then some "journal checksum type is not crc32c"
    else none

def csumSeed (crc : Crc) : UInt32 := crc 0xFFFFFFFF jsb.uuid

def tagBytes : Nat :=
  if jsb.usesCsumV3 then 16
  else if jsb.has incompatCsumV2 then (if jsb.uses64bit then 14 else 10)
  else if jsb.uses64bit then 12 else 8

def tailBytes : Nat := if jsb.usesCsumV2OrV3 then blockTailBytes else 0

def seed (crc : Crc) : Option UInt32 :=
  if jsb.usesCsumV2OrV3 then some (jsb.csumSeed crc) else none

end JournalSuperblock

def tagChecksum (crc : Crc) (seed sequence : UInt32) (data : Bytes) : UInt32 :=
  crc (crc seed (u32be sequence)) data

def blockTailChecksum (crc : Crc) (seed : UInt32) (block : Bytes) : UInt32 :=
  crc (crc seed (slice block 0 (block.length - blockTailBytes))) [0, 0, 0, 0]

def commitBlockChecksum (crc : Crc) (seed : UInt32) (block : Bytes) : UInt32 :=
  crc (crc (crc seed (slice block 0 commitChecksumAt)) [0, 0, 0, 0])
    (block.drop (commitChecksumAt + 4))

def JournalSuperblock.parse (raw : Bytes) : Result JournalSuperblock := do
  if raw.length < 0x100 then
    throw (.corrupt "jbd2 superblock buffer too small")
  if u32beAt raw 0x00 != magicNumber then
    throw (.corrupt "jbd2 superblock magic mismatch")
  let blockType := u32beAt raw 0x04
  if blockType != superblockV1 && blockType != superblockV2 then
    throw (.corrupt "jbd2 header is not a superblock block type")
  let out : JournalSuperblock :=
    { blockType
      headerSequence := u32beAt raw 0x08
      blockSize := u32beAt raw 0x0C
      maxLen := u32beAt raw 0x10
      first := u32beAt raw 0x14
      sequence := u32beAt raw 0x18
      start := u32beAt raw 0x1C
      errno := u32beAt raw 0x20
      featureCompat := 0
      featureIncompat := 0
      featureRoCompat := 0
      uuid := List.replicate 16 0
      nrUsers := 0
      checksumType := 0
      numFcBlocks := 0
      checksum := 0 }
  if blockType == superblockV2 then
    return { out with
      featureCompat := u32beAt raw 0x24
      featureIncompat := u32beAt raw 0x28
      featureRoCompat := u32beAt raw 0x2C
      uuid := slice raw 0x30 16
      nrUsers := u32beAt raw 0x40
      checksumType := raw.getD 0x50 0
      numFcBlocks := u32beAt raw 0x54
      checksum := u32beAt raw 0xFC }
  return out

theorem blockTailChecksum_congr (crc : Crc) (seed : UInt32) (a b : Bytes)
    (hl : a.length = b.length)
    (h : slice a 0 (a.length - blockTailBytes) = slice b 0 (a.length - blockTailBytes)) :
    blockTailChecksum crc seed a = blockTailChecksum crc seed b := by
  rw [blockTailChecksum, blockTailChecksum, h, hl]

end FsExt4.Jbd2
