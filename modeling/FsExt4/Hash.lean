import FsExt4.Lib.Bytes

namespace FsExt4.Hash

open Lib

inductive HashVersion where
  | legacy
  | halfMd4
  | tea
  | legacyUnsigned
  | halfMd4Unsigned
  | teaUnsigned
  deriving DecidableEq

def HashVersion.fromU8 (v : UInt8) : Option HashVersion :=
  match v.toNat with
  | 0 => some .legacy
  | 1 => some .halfMd4
  | 2 => some .tea
  | 3 => some .legacyUnsigned
  | 4 => some .halfMd4Unsigned
  | 5 => some .teaUnsigned
  | _ => none

def HashVersion.isUnsigned : HashVersion → Bool
  | .legacyUnsigned | .halfMd4Unsigned | .teaUnsigned => true
  | _ => false

theorem HashVersion.fromU8_isSome_iff (v : UInt8) : (fromU8 v).isSome ↔ v.toNat ≤ 5 := by
  unfold fromU8
  split
  all_goals simp_all
  omega

/-- The variant a directory hashes with, given the superblock's unsigned-hash flag. -/
def effectiveVersion (rootVersion : HashVersion) (unsignedHash : Bool) : HashVersion :=
  if !unsignedHash then rootVersion
  else match rootVersion with
    | .legacy => .legacyUnsigned
    | .halfMd4 => .halfMd4Unsigned
    | .tea => .teaUnsigned
    | alreadyUnsigned => alreadyUnsigned

structure NameHash where
  major : UInt32
  minor : UInt32
  deriving DecidableEq

/-- `byte as i8 as i32 as u32` for the signed versions, `u32::from(byte)` for the others. -/
def widen (isUnsigned : Bool) (byte : UInt8) : UInt32 :=
  if isUnsigned ∨ byte.toNat < 0x80 then byte.toUInt32 else byte.toUInt32 + 0xFFFFFF00

def fillWord (remaining : Nat) : UInt32 :=
  let r := UInt32.ofNat remaining
  r ||| (r <<< 8) ||| (r <<< 16) ||| (r <<< 24)

def pack (isUnsigned : Bool) (bytes : Bytes) (fill : UInt32) : UInt32 :=
  bytes.foldl (fun word b => (word <<< 8) + widen isUnsigned b) fill

/-- The `n`-word blocks of a name; `fuel` is at least the bytes left. -/
def wordBlocks (n : Nat) (isUnsigned : Bool) : Nat → Bytes → List (List UInt32)
  | 0, _ => []
  | fuel + 1, rest =>
    if rest.isEmpty then []
    else
      let fill := fillWord rest.length
      let thisBlock := rest.take (4 * n)
      -- a word past the end of the name packs no byte and stays the fill word
      (List.range n).map (fun i => pack isUnsigned (slice thisBlock (4 * i) 4) fill) ::
        wordBlocks n isUnsigned fuel (rest.drop (4 * n))

def rfc1320InitialState : List UInt32 := [0x67452301, 0xEFCDAB89, 0x98BADCFE, 0x10325476]

def startingState (seed : List UInt32) : List UInt32 :=
  if seed.all (· == 0) then rfc1320InitialState else seed

def chainBlocks (n : Nat) (absorb : List UInt32 → List UInt32 → List UInt32) (name : Bytes)
    (isUnsigned : Bool) (seed : List UInt32) : List UInt32 :=
  (wordBlocks n isUnsigned name.length name).foldl absorb (startingState seed)

def rotateLeft (x n : UInt32) : UInt32 := (x <<< n) ||| (x >>> (32 - n))

def rfc1320F (x y z : UInt32) : UInt32 := (x &&& y) ||| (~~~x &&& z)
def rfc1320G (x y z : UInt32) : UInt32 := (x &&& y) ||| (x &&& z) ||| (y &&& z)
def rfc1320H (x y z : UInt32) : UInt32 := x ^^^ y ^^^ z

structure Md4Round where
  mix : UInt32 → UInt32 → UInt32 → UInt32
  constant : UInt32
  words : List Nat
  rotations : List UInt32

def halfMd4Rounds : List Md4Round := [
  ⟨rfc1320F, 0, [0, 1, 2, 3, 4, 5, 6, 7], [3, 7, 11, 19]⟩,
  ⟨rfc1320G, 0x5A827999, [1, 3, 5, 7, 0, 2, 4, 6], [3, 5, 9, 13]⟩,
  ⟨rfc1320H, 0x6ED9EBA1, [3, 7, 2, 6, 1, 5, 0, 4], [3, 9, 11, 15]⟩]

def md4Step (round : Md4Round) (block : List UInt32) (reg : List UInt32) (step : Nat) :
    List UInt32 :=
  let target := (4 - step % 4) % 4
  let x := reg.getD ((target + 1) % 4) 0
  let y := reg.getD ((target + 2) % 4) 0
  let z := reg.getD ((target + 3) % 4) 0
  let sum := reg.getD target 0 + round.mix x y z + block.getD (round.words.getD step 0) 0 +
    round.constant
  reg.set target (rotateLeft sum (round.rotations.getD (step % 4) 0))

def md4Absorb (state block : List UInt32) : List UInt32 :=
  let reg := halfMd4Rounds.foldl
    (fun reg round => (List.range 8).foldl (md4Step round block) reg) state
  List.zipWith (· + ·) state reg

def teaDelta : UInt32 := 0x9E3779B9

/-- The TEA encipher routine; `sum` is the key schedule before the cycle. -/
def teaEncipher (key : List UInt32) : Nat → UInt32 → UInt32 × UInt32 → UInt32 × UInt32
  | 0, _, plain => plain
  | cycles + 1, sum, (y, z) =>
    let sum := sum + teaDelta
    let y := y + (((z <<< 4) + key.getD 0 0) ^^^ (z + sum) ^^^ ((z >>> 5) + key.getD 1 0))
    let z := z + (((y <<< 4) + key.getD 2 0) ^^^ (y + sum) ^^^ ((y >>> 5) + key.getD 3 0))
    teaEncipher key cycles sum (y, z)

def teaAbsorb (state block : List UInt32) : List UInt32 :=
  let (y, z) := teaEncipher block 16 0 (state.getD 0 0, state.getD 1 0)
  (state.set 0 (state.getD 0 0 + y)).set 1 (state.getD 1 0 + z)

def legacyStep (isUnsigned : Bool) (terms : UInt32 × UInt32) (byte : UInt8) : UInt32 × UInt32 :=
  let scaled := widen isUnsigned byte * 0x006D22F5
  let next := terms.1 + (terms.2 ^^^ scaled)
  (terms.2, if next &&& 0x80000000 ≠ 0 then next - 0x7FFFFFFF else next)

def legacyDigest (name : Bytes) (isUnsigned : Bool) : UInt32 :=
  (name.foldl (legacyStep isUnsigned) (0x37ABE8F9, 0x12A3FE2D)).2 <<< 1

def endOfDirectoryMajor : UInt32 := 0xFFFFFFFE

/-- A major hash as the index stores it: even, and never the end-of-directory marker. -/
def storedMajor (major : UInt32) : UInt32 :=
  let major := major &&& ~~~1
  if major = endOfDirectoryMajor then endOfDirectoryMajor - 2 else major

theorem storedMajor_ne_end (major : UInt32) : storedMajor major ≠ endOfDirectoryMajor := by
  unfold storedMajor
  dsimp only
  split
  · decide
  · assumption

theorem storedMajor_even (major : UInt32) : storedMajor major &&& 1 = 0 := by
  unfold storedMajor
  dsimp only
  split
  · decide
  · rw [UInt32.and_assoc]
    simp

def nameHash (name : Bytes) (version : HashVersion) (seed : List UInt32) : NameHash :=
  match version with
  | .legacy | .legacyUnsigned => ⟨storedMajor (legacyDigest name version.isUnsigned), 0⟩
  | .halfMd4 | .halfMd4Unsigned =>
    let state := chainBlocks 8 md4Absorb name version.isUnsigned seed
    ⟨storedMajor (state.getD 1 0), state.getD 2 0⟩
  | .tea | .teaUnsigned =>
    let state := chainBlocks 4 teaAbsorb name version.isUnsigned seed
    ⟨storedMajor (state.getD 0 0), state.getD 1 0⟩

theorem nameHash_major (name : Bytes) (version : HashVersion) (seed : List UInt32) :
    (nameHash name version seed).major ≠ endOfDirectoryMajor ∧
      (nameHash name version seed).major &&& 1 = 0 := by
  cases version
  all_goals exact ⟨storedMajor_ne_end _, storedMajor_even _⟩

example : nameHash [0x63, 0x61, 0x66, 0xC3, 0xA9] .legacy [0, 0, 0, 0] = ⟨0x96CA5A2C, 0⟩ := by
  decide

example : nameHash [0x63, 0x61, 0x66, 0xC3, 0xA9] .halfMd4 [0, 0, 0, 0] =
    ⟨0xFB9C5E5C, 0x0573E8B8⟩ := by
  decide

example : nameHash [0x63, 0x61, 0x66, 0xC3, 0xA9] .tea [0, 0, 0, 0] =
    ⟨0x105842EA, 0xFB9165CA⟩ := by
  decide

end FsExt4.Hash
