import FsExt4.FileReplace
import Mathlib.Data.UInt

namespace FsExt4

open Lib Jbd2 Alloc

/-- An inode with its owner, its times and its checksum. -/
structure FullInode extends Inode where
  uid : Nat
  gid : Nat
  atime : Int
  mtime : Int
  ctime : Int
  dtime : Int
  crtime : Int
  atimeNsec : UInt32
  mtimeNsec : UInt32
  ctimeNsec : UInt32
  crtimeNsec : UInt32
  checksum : Nat
  deriving DecidableEq

def join16 (hi lo : UInt16) : Nat := hi.toNat * 2 ^ 16 + lo.toNat

def signedWord (w : UInt32) : Int := if w.toNat < 2 ^ 31 then w.toNat else w.toNat - 2 ^ 32

/-- A time from its base word and its companion, whose low two bits count eras of 2^32 seconds. -/
def unpackSeconds (base extra : UInt32) : Int :=
    signedWord base + ((extra &&& 3).toNat : Int) * 2 ^ 32

def extraIsize (raw : Bytes) : Nat :=
  if inodeExtraOffset + 4 ≤ raw.length then (u16leAt raw 0x80).toNat else 0

namespace FullInode

def read (raw : Bytes) (inode : Inode) : FullInode :=
  let isize := extraIsize raw
  let checksumHi := if 4 ≤ isize then u16leAt raw 0x82 else 0
  let ctimeExtra := if 8 ≤ isize then u32leAt raw 0x84 else 0
  let mtimeExtra := if 12 ≤ isize then u32leAt raw 0x88 else 0
  let atimeExtra := if 16 ≤ isize then u32leAt raw 0x8C else 0
  let crtimeBase := if 20 ≤ isize then u32leAt raw 0x90 else 0
  let crtimeExtra := if 24 ≤ isize then u32leAt raw 0x94 else 0
  { inode with
    uid := join16 (u16leAt raw 0x78) (u16leAt raw 0x02)
    gid := join16 (u16leAt raw 0x7A) (u16leAt raw 0x18)
    atime := unpackSeconds (u32leAt raw 0x08) atimeExtra
    mtime := unpackSeconds (u32leAt raw 0x10) mtimeExtra
    ctime := unpackSeconds (u32leAt raw 0x0C) ctimeExtra
    dtime := signedWord (u32leAt raw 0x14)
    crtime := unpackSeconds crtimeBase crtimeExtra
    atimeNsec := atimeExtra >>> 2
    mtimeNsec := mtimeExtra >>> 2
    ctimeNsec := ctimeExtra >>> 2
    crtimeNsec := crtimeExtra >>> 2
    checksum := join16 checksumHi (u16leAt raw 0x7C) }

def parse (raw : Bytes) : Result FullInode := do
  let inode ← Inode.parse raw
  return read raw inode

def time (inode : FullInode) : InodeTime → Int
  | .atime => inode.atime
  | .ctime => inode.ctime
  | .mtime => inode.mtime
  | .crtime => inode.crtime

def nsec (inode : FullInode) : InodeTime → UInt32
  | .atime => inode.atimeNsec
  | .ctime => inode.ctimeNsec
  | .mtime => inode.mtimeNsec
  | .crtime => inode.crtimeNsec

def withTime (inode : FullInode) (field : InodeTime) (sec : Int) (nsec : UInt32) : FullInode :=
  match field with
  | .atime => { inode with atime := sec, atimeNsec := nsec }
  | .ctime => { inode with ctime := sec, ctimeNsec := nsec }
  | .mtime => { inode with mtime := sec, mtimeNsec := nsec }
  | .crtime => { inode with crtime := sec, crtimeNsec := nsec }

def withChecksum (inode : FullInode) (checksum : Nat) : FullInode :=
    { inode with checksum := checksum }

end FullInode

def timeOmit : Int := -2 ^ 63

def utimeNow : UInt32 := 2 ^ 30 - 1

def utimeOmit : UInt32 := 2 ^ 30 - 2

def nsecPerSec : UInt32 := 1000000000

def packNsecLo (nsec : UInt32) : UInt32 := (nsec &&& 0x3FFFFFFF) <<< 2

/-- What one pair of seconds and nanoseconds asks for. -/
inductive TimeUpdate where
  | omit
  | set (sec : Int) (nsec : UInt32)
  deriving DecidableEq

namespace TimeUpdate

def resolve (sec : Int) (nsec : UInt32) (now : Int) : Result TimeUpdate :=
  if sec = timeOmit ∨ nsec = utimeOmit then .ok .omit
  else if nsec = utimeNow then .ok (.set now 0)
  else if nsecPerSec ≤ nsec then
    .error (.invalidArgument "nanoseconds must be below 1e9 (or UTIME_NOW / UTIME_OMIT)")
  else if sec < minEncodableTime ∨ maxEncodableTime < sec then
    .error (.invalidArgument "timestamp outside the range ext4 can store (1901..2446)")
  else .ok (.set sec nsec)

def check (update : TimeUpdate) (hasExtra : Bool) : Result Unit :=
  match update with
  | .omit => .ok ()
  | .set sec _ =>
    if (packSeconds sec).2 ≠ 0 ∧ hasExtra = false then
      .error (.invalidArgument
        "timestamp past 2038 needs an *_extra field this inode is too small to hold")
    else .ok ()

/-- Store what is asked for at `base`, and at `extra` if the inode has room there. -/
def store (update : TimeUpdate) (raw : Bytes) (base extra : Nat) (hasExtra : Bool) : Bytes :=
  match update with
  | .omit => raw
  | .set sec nsec =>
    let raw := copyAt raw base (u32le (packSeconds sec).1)
    if hasExtra then copyAt raw extra (u32le (packNsecLo nsec ||| (packSeconds sec).2)) else raw

end TimeUpdate

/-- The inode's own extra size covers so many bytes, and the inode has them. -/
def declaresExtra (raw : Bytes) (need : Nat) : Bool :=
  let isize := if 0x82 ≤ raw.length then (u16leAt raw 0x80).toNat else 0
  decide (need ≤ isize ∧ inodeExtraOffset + need ≤ raw.length)

def storeTimes (raw : Bytes) (atime mtime : TimeUpdate) (now : Int) : Result Bytes := do
  let hasMtimeExtra := declaresExtra raw 12
  let hasAtimeExtra := declaresExtra raw 16
  atime.check hasAtimeExtra
  mtime.check hasMtimeExtra
  let raw := atime.store raw 0x08 0x8C hasAtimeExtra
  let raw := mtime.store raw 0x10 0x88 hasMtimeExtra
  return setInodeTime raw .ctime now

/-- An inode by its number, and its generation if that is known. -/
structure InodeRef where
  ino : UInt32
  generation : Option UInt32

def ext4RootInode : UInt32 := 2

namespace Mount

section Model

variable (crc : Crc) (m : Mount) (d : Disk)

def inodeBitIsSet (ino : UInt32) : Result Bool :=
  if ino = 0 ∨ m.fs.sb.inodesCount < ino ∨ m.fs.sb.inodesPerGroup = 0 then .ok false
  else
    match m.allocationGroups[(ino.toNat - 1) / m.fs.sb.inodesPerGroup.toNat]? with
    | none => .ok false
    | some group =>
      if group.flags &&& inodeUninit ≠ 0 then .ok false
      else do
        let bitmap ← m.fs.reader d group.inodeBitmap
        return bitIsSet bitmap ((ino.toNat - 1) % m.fs.sb.inodesPerGroup.toNat)

def liveInode (r : InodeRef) : Result (Inode × Bytes) := do
  let reserved := r.ino < m.fs.sb.firstInode ∧ r.ino ≠ ext4RootInode
  if r.ino = 0 ∨ m.fs.sb.inodesCount < r.ino ∨ reserved then throw .stale
  if !(← m.inodeBitIsSet d r.ino) then throw .stale
  let (inode, raw) ← m.readInodeVerified crc d r.ino
  if inode.linksCount = 0 ∨ inode.mode = 0 then throw .stale
  if r.generation.any (· ≠ inode.generation) then throw .stale
  return (inode, raw)

def finalizeInodeRaw (ino generation : UInt32) (raw : Bytes) : Bytes :=
  if m.csum.enabled then m.csum.patchInodeChecksum crc ino generation raw else raw

/-- The inode with both times, `ctime` and the checksum that the call stores, or none if it stores
none. -/
def utimensInode (now : Int) (r : InodeRef) (atimeSec : Int) (atimeNsec : UInt32) (mtimeSec : Int)
    (mtimeNsec : UInt32) : Result (Option Bytes) := do
  let atime ← TimeUpdate.resolve atimeSec atimeNsec now
  let mtime ← TimeUpdate.resolve mtimeSec mtimeNsec now
  let (inode, raw) ← m.liveInode crc d r
  if atime = .omit ∧ mtime = .omit then return none
  let raw ← storeTimes raw atime mtime now
  return some (m.finalizeInodeRaw crc r.ino inode.generation raw)

def commitInodeWrite (ino : UInt32) (newInodeRaw : Bytes) : Result Unit × Mount × Disk :=
  match m.bufferWriteInode d BlockBuffer.new ino newInodeRaw with
  | .error e => (.error e, m, d)
  | .ok buf =>
    match (m.commitBlockBuffer crc buf).exec d with
    | (.error e, d') => (.error e, m, d')
    | (.ok (r, m'), d') => (r, m', d')

/-- `apply_utimens_ino` on a volume already marked not clean, with the clock at `now`. -/
def applyUtimensIno (now : Int) (r : InodeRef) (atimeSec : Int) (atimeNsec : UInt32)
    (mtimeSec : Int) (mtimeNsec : UInt32) : Result Unit × Mount × Disk :=
  match m.utimensInode crc d now r atimeSec atimeNsec mtimeSec mtimeNsec with
  | .error e => (.error e, m, d)
  | .ok none => (.ok (), m, d)
  | .ok (some raw) => m.commitInodeWrite crc d r.ino raw

end Model

end Mount

theorem toNat_lowWord (secs : Int) : ((lowWord secs).toNat : Int) = secs % 2 ^ 32 := by
  unfold lowWord
  rw [UInt32.toNat_ofNat']
  omega

theorem toNat_eraBits (w : UInt32) : (w &&& 3).toNat = w.toNat % 4 := by
  rw [UInt32.toNat_and]
  exact Nat.and_two_pow_sub_one_eq_mod w.toNat 2

theorem signedWord_lowWord {secs : Int} (h : -2 ^ 31 ≤ secs) (h' : secs < 2 ^ 31) :
    signedWord (lowWord secs) = secs := by
  have hlow := toNat_lowWord secs
  unfold signedWord
  split <;> omega

theorem unpackSeconds_packSeconds {secs : Int} (h : minEncodableTime ≤ secs)
    (h' : secs ≤ maxEncodableTime) :
    unpackSeconds (packSeconds secs).1 (packSeconds secs).2 = secs := by
  unfold minEncodableTime at h
  unfold maxEncodableTime at h'
  have hlow := toNat_lowWord secs
  have hera := toNat_lowWord ((secs / 2 ^ 31 + 1) / 2)
  unfold unpackSeconds packSeconds signedWord
  dsimp only
  rw [toNat_eraBits, toNat_eraBits]
  split <;> omega

theorem unpackSeconds_zero (base : UInt32) : unpackSeconds base 0 = signedWord base := by
  unfold unpackSeconds
  exact Int.add_zero _

theorem clampTime_range {low high : Int} (h : low ≤ high) (secs : Int) :
    low ≤ clampTime low high secs ∧ clampTime low high secs ≤ high := by
  unfold clampTime
  omega

theorem packNsecLo_shiftRight {nsec era : UInt32} (h : nsec < nsecPerSec) (hera : era.toNat < 4) :
    (packNsecLo nsec ||| era) >>> 2 = nsec ∧ (packNsecLo nsec ||| era) &&& 3 = era := by
  have hlt : nsec.toNat < 1000000000 := UInt32.lt_iff_toNat_lt.mp h
  have hmask : (nsec &&& 0x3FFFFFFF).toNat = nsec.toNat := by
    rw [UInt32.toNat_and]
    exact (Nat.and_two_pow_sub_one_eq_mod nsec.toNat 30).trans (Nat.mod_eq_of_lt (by omega))
  have hword : (packNsecLo nsec ||| era).toNat = nsec.toNat * 4 + era.toNat := by
    have hshift : nsec.toNat <<< 2 % 2 ^ 32 = nsec.toNat <<< 2 := by
      rw [Nat.shiftLeft_eq]
      omega
    rw [UInt32.toNat_or, packNsecLo, UInt32.toNat_shiftLeft, hmask]
    rw [show (2 : UInt32).toNat % 32 = 2 from rfl, hshift, ← Nat.shiftLeft_add_eq_or_of_lt hera,
      Nat.shiftLeft_eq]
  constructor
  · apply UInt32.toNat_inj.mp
    rw [UInt32.toNat_shiftRight, hword, show (2 : UInt32).toNat % 32 = 2 from rfl,
      Nat.shiftRight_eq_div_pow]
    omega
  · apply UInt32.toNat_inj.mp
    rw [toNat_eraBits, hword]
    omega

namespace InodeTime

variable (raw : Bytes) (field : InodeTime)

/-- `crtime` has a base word where the extra size reaches it, the other times always. -/
def hasBase : Bool := decide (field ≠ crtime ∨ field.baseOffset + 4 ≤
    inodeExtraOffset + extraIsize raw)

def hasExtra : Bool := decide (field.extraOffset + 4 ≤ inodeExtraOffset + extraIsize raw)

def words : UInt32 × UInt32 :=
  (if field.hasBase raw then u32leAt raw field.baseOffset else 0,
    if field.hasExtra raw then u32leAt raw field.extraOffset else 0)

end InodeTime

theorem extraIsize_le {raw : Bytes} (h : Inode.Parses raw) :
    inodeExtraOffset + extraIsize raw ≤ max raw.length inodeExtraOffset := by
  have hextra := h.extra
  unfold extraIsize
  split
  · rename_i hlen
    have hfit := hextra hlen
    omega
  · omega

theorem extraFieldFits_eq {raw : Bytes} (h : Inode.Parses raw) {off : Nat} (hoff : 0x84 ≤ off) :
    extraFieldFits raw off = decide (off + 4 ≤ inodeExtraOffset + extraIsize raw) := by
  have hle := extraIsize_le h
  have hextra := h.extra
  have hdef : extraIsize raw = if inodeExtraOffset + 4 ≤ raw.length
    then (u16leAt raw 0x80).toNat else 0 := rfl
  have h128 : inodeExtraOffset = 128 := rfl
  unfold extraFieldFits
  rw [decide_eq_decide]
  constructor
  · rintro ⟨-, hroom, hdeclared⟩
    rw [if_pos (by omega)] at hdef
    omega
  · intro hfits
    split at hdef
    · exact ⟨by omega, by omega, by omega⟩
    · omega

/-- The bytes that are in no time and in no checksum. -/
structure SameAttributes (raw' raw : Bytes) : Prop where
  length : raw'.length = raw.length
  front : AgreeOn raw' raw 0 0x08
  body : AgreeOn raw' raw 0x14 0x7C
  extra : AgreeOn raw' raw 0x80 0x82

namespace SameAttributes

variable {raw raw' raw'' : Bytes}

theorem refl (raw : Bytes) : SameAttributes raw raw :=
  ⟨rfl, AgreeOn.refl _ _ _, AgreeOn.refl _ _ _, AgreeOn.refl _ _ _⟩

theorem trans (h : SameAttributes raw'' raw') (h' : SameAttributes raw' raw) :
    SameAttributes raw'' raw :=
  ⟨h.length.trans h'.length, h.front.trans h'.front, h.body.trans h'.body, h.extra.trans h'.extra⟩

theorem parses (h : SameAttributes raw' raw) (hparses : Inode.Parses raw) : Inode.Parses raw' :=
  hparses.of_agree h.length h.extra

theorem extraIsize (h : SameAttributes raw' raw) : extraIsize raw' = extraIsize raw := by
  unfold FsExt4.extraIsize
  rw [h.length, h.extra.u16leAt 0x80 (Nat.le_refl _) (Nat.le_refl _)]

theorem hasBase (h : SameAttributes raw' raw) (field : InodeTime) : field.hasBase raw' =
    field.hasBase raw := by
  unfold InodeTime.hasBase
  rw [h.extraIsize]

theorem hasExtra (h : SameAttributes raw' raw) (field : InodeTime) :
    field.hasExtra raw' = field.hasExtra raw := by
  unfold InodeTime.hasExtra
  rw [h.extraIsize]

end SameAttributes

namespace FullInode

variable {raw raw' : Bytes}

def fields (raw : Bytes) : FullInode := read raw (Inode.fields raw)

theorem parse_eq_ok {inode : FullInode} : parse raw = .ok inode ↔ Inode.Parses raw ∧
    inode = fields raw := by
  unfold parse
  constructor
  · intro h
    obtain ⟨inode', hparse, h⟩ := Result.bind_eq_ok h
    obtain ⟨hparses, rfl⟩ := Inode.parse_eq_ok.mp hparse
    exact ⟨hparses, (Except.ok.inj h).symm⟩
  · rintro ⟨hparses, rfl⟩
    rw [Inode.parse_eq_ok.mpr ⟨hparses, rfl⟩]
    rfl

@[simp] theorem fields_toInode (raw : Bytes) : (fields raw).toInode = Inode.fields raw := rfl

theorem reached_field (raw : Bytes) (n : Nat) (w : UInt32) :
    (if n ≤ extraIsize raw then w else 0) =
      if decide (inodeExtraOffset + n ≤ inodeExtraOffset + extraIsize raw) = true
          then w else 0 := by
  simp only [decide_eq_true_eq, Nat.add_le_add_iff_left]

theorem time_fields (raw : Bytes) (field : InodeTime) :
    (fields raw).time field = unpackSeconds (field.words raw).1 (field.words raw).2 := by
  cases field with
  | atime => exact congrArg (unpackSeconds _) (reached_field raw 16 _)
  | ctime => exact congrArg (unpackSeconds _) (reached_field raw 8 _)
  | mtime => exact congrArg (unpackSeconds _) (reached_field raw 12 _)
  | crtime =>
    have hbase : InodeTime.crtime.hasBase raw =
        decide (inodeExtraOffset + 20 ≤ inodeExtraOffset + extraIsize raw) :=
      decide_eq_decide.mpr (or_iff_right (fun hne => hne rfl))
    have hwords := reached_field raw 20 (u32leAt raw 0x90)
    rw [← hbase] at hwords
    exact congr (congrArg unpackSeconds hwords) (reached_field raw 24 _)

theorem nsec_fields (raw : Bytes) (field : InodeTime) :
    (fields raw).nsec field = (field.words raw).2 >>> 2 := by
  cases field with
  | atime => exact congrArg (fun w : UInt32 => w >>> 2) (reached_field raw 16 _)
  | ctime => exact congrArg (fun w : UInt32 => w >>> 2) (reached_field raw 8 _)
  | mtime => exact congrArg (fun w : UInt32 => w >>> 2) (reached_field raw 12 _)
  | crtime => exact congrArg (fun w : UInt32 => w >>> 2) (reached_field raw 24 _)

def untimed (inode : FullInode) : FullInode :=
  { inode with
    atime := 0, mtime := 0, ctime := 0, crtime := 0
    atimeNsec := 0, mtimeNsec := 0, ctimeNsec := 0, crtimeNsec := 0 }

theorem ext_times {a b : FullInode} (huntimed : a.untimed = b.untimed)
    (htime : ∀ field, a.time field = b.time field) (hnsec : ∀ field, a.nsec field = b.nsec field) :
      a = b := by
  obtain ⟨base, uid, gid, atime, mtime, ctime, dtime, crtime, atimeNsec, mtimeNsec,
    ctimeNsec, crtimeNsec, checksum⟩ := a
  have h1 := htime .atime
  have h2 := htime .mtime
  have h3 := htime .ctime
  have h4 := htime .crtime
  have n1 := hnsec .atime
  have n2 := hnsec .mtime
  have n3 := hnsec .ctime
  have n4 := hnsec .crtime
  simp only [time, nsec] at h1 h2 h3 h4 n1 n2 n3 n4
  simp only [untimed, mk.injEq] at huntimed
  obtain ⟨hbase, huid, hgid, -, -, -, hdtime, -, -, -, -, -, hsum⟩ := huntimed
  subst h1 h2 h3 h4 n1 n2 n3 n4 hbase huid hgid hdtime hsum
  rfl

theorem untimed_fields (h : SameAttributes raw' raw) :
    (fields raw').untimed = ((fields raw).withChecksum (fields raw').checksum).untimed := by
  have hbase : Inode.fields raw' = Inode.fields raw := by
    apply SameFields.fields
    exact ⟨h.length, h.front, h.body.mono (by decide) (by decide), h.extra⟩
  unfold withChecksum untimed fields read
  dsimp only
  rw [hbase, h.body.u16leAt 0x78 (by decide) (by decide), h.front.u16leAt 0x02 (by decide)
    (by decide),
    h.body.u16leAt 0x7A (by decide) (by decide), h.body.u16leAt 0x18 (by decide) (by decide),
    h.body.u32leAt 0x14 (by decide) (by decide)]

theorem checksum_fields (h : SameAttributes raw' raw) (hlo : AgreeOn raw' raw 0x7C 0x7E)
    (hhi : AgreeOn raw' raw 0x82 0x84) : (fields raw').checksum = (fields raw).checksum := by
  unfold fields read
  dsimp only
  rw [h.extraIsize, hlo.u16leAt 0x7C (Nat.le_refl _) (Nat.le_refl _),
    hhi.u16leAt 0x82 (Nat.le_refl _) (Nat.le_refl _)]

section WithTime

variable (inode : FullInode) (field other : InodeTime) (sec : Int) (nsec : UInt32)

@[simp] theorem untimed_withTime : (inode.withTime field sec nsec).untimed = inode.untimed := by
  cases field <;> rfl

@[simp] theorem time_withTime :
    (inode.withTime field sec nsec).time other = if other = field
      then sec else inode.time other := by
  cases field <;> cases other <;> rfl

@[simp] theorem nsec_withTime :
    (inode.withTime field sec nsec).nsec other = if other = field
      then nsec else inode.nsec other := by
  cases field <;> cases other <;> rfl

@[simp] theorem time_withChecksum (checksum : Nat) :
    (inode.withChecksum checksum).time other = inode.time other := by
  cases other <;> rfl

@[simp] theorem nsec_withChecksum (checksum : Nat) :
    (inode.withChecksum checksum).nsec other = inode.nsec other := by
  cases other <;> rfl

end WithTime

end FullInode

structure TimeStored (raw' raw : Bytes) (field : InodeTime) (base extra : UInt32) : Prop where
  same : SameAttributes raw' raw
  sumLo : AgreeOn raw' raw 0x7C 0x7E
  sumHi : AgreeOn raw' raw 0x82 0x84
  words : field.words raw' = (base, extra)
  others : ∀ other, other ≠ field → other.words raw' = other.words raw

section Store

variable {raw raw' : Bytes} {field : InodeTime} {off : Nat} {v base extra : UInt32}

def IsTimeWord (off : Nat) : Prop := 0x08 ≤ off ∧ off + 4 ≤ 0x14 ∨ 0x84 ≤ off

theorem sameAttributes_word (hfit : off + 4 ≤ raw.length) (hoff : IsTimeWord off) :
    SameAttributes (copyAt raw off (u32le v)) raw ∧ AgreeOn (copyAt raw off (u32le v))
      raw 0x7C 0x7E ∧
      AgreeOn (copyAt raw off (u32le v)) raw 0x82 0x84 := by
  unfold IsTimeWord at hoff
  have hagree : ∀ lo hi, (hi ≤ off ∨ off + 4 ≤ lo) → AgreeOn (copyAt raw off (u32le v))
      raw lo hi := by
    intro lo hi h
    exact agreeOn_copyAt raw off _ lo hi (by omega) (by rw [length_u32le]; exact h)
  refine ⟨⟨length_copyAt raw off _ (by rw [length_u32le]; exact hfit), ?_, ?_, ?_⟩, ?_, ?_⟩ <;>
    exact hagree _ _ (by omega)

theorem u32leAt_copyAt_apart (hfit : off + 4 ≤ raw.length) {o : Nat}
    (h : o + 4 ≤ off ∨ off + 4 ≤ o) :
    u32leAt (copyAt raw off (u32le v)) o = u32leAt raw o :=
  (agreeOn_copyAt raw off (u32le v) o (o + 4) (by omega) (by rw [length_u32le]; omega)).u32leAt o
    (Nat.le_refl _) (Nat.le_refl _)

theorem isTimeWord_base (field : InodeTime) : IsTimeWord field.baseOffset := by
  unfold IsTimeWord
  cases field <;> decide

theorem isTimeWord_extra (field : InodeTime) : IsTimeWord field.extraOffset := by
  unfold IsTimeWord
  cases field <;> decide

theorem base_apart {other : InodeTime} (h : other ≠ field) :
    other.baseOffset + 4 ≤ field.baseOffset ∨ field.baseOffset + 4 ≤ other.baseOffset := by
  cases field <;> cases other <;> first | exact absurd rfl h | decide

theorem extra_apart {other : InodeTime} (h : other ≠ field) :
    other.extraOffset + 4 ≤ field.extraOffset ∨ field.extraOffset + 4 ≤ other.extraOffset := by
  cases field <;> cases other <;> first | exact absurd rfl h | decide

theorem base_extra_apart (field other : InodeTime) :
    other.extraOffset + 4 ≤ field.baseOffset ∨ field.baseOffset + 4 ≤ other.extraOffset := by
  cases field <;> cases other <;> decide

theorem base_fits (hparses : Inode.Parses raw) (h : field.hasBase raw = true) :
    field.baseOffset + 4 ≤ raw.length := by
  have h128 : 128 ≤ raw.length := hparses.base
  have hle := extraIsize_le hparses
  have hdef : inodeExtraOffset = 128 := rfl
  unfold InodeTime.hasBase at h
  obtain hne | hreach := of_decide_eq_true h
  · cases field <;> first | exact absurd rfl hne | (simp only [InodeTime.baseOffset]; omega)
  · cases field <;> simp only [InodeTime.baseOffset] at hreach ⊢ <;> omega

theorem extra_fits (hparses : Inode.Parses raw) (h : field.hasExtra raw = true) :
    field.extraOffset + 4 ≤ raw.length := by
  have hle := extraIsize_le hparses
  have hdef : inodeExtraOffset = 128 := rfl
  have hreach := of_decide_eq_true h
  cases field <;> simp only [InodeTime.extraOffset] at hreach ⊢ <;> omega

theorem hasBase_of_hasExtra (h : field.hasExtra raw = true) : field.hasBase raw = true := by
  have hreach := of_decide_eq_true h
  apply decide_eq_true
  cases field with
  | crtime =>
    right
    simp only [InodeTime.extraOffset] at hreach
    simp only [InodeTime.baseOffset]
    omega
  | _ => left; decide

theorem timeStored_base (hparses : Inode.Parses raw) (h : field.hasBase raw = true) (v : UInt32) :
    TimeStored (copyAt raw field.baseOffset (u32le v)) raw field v (field.words raw).2 := by
  have hfit := base_fits hparses h
  obtain ⟨hsame, hlo, hhi⟩ := @sameAttributes_word raw _ v hfit (isTimeWord_base field)
  refine ⟨hsame, hlo, hhi, ?_, ?_⟩
  · unfold InodeTime.words
    rw [hsame.hasBase, hsame.hasExtra, h, if_pos rfl, u32leAt_copyAt raw _ v hfit,
      u32leAt_copyAt_apart hfit (base_extra_apart field field)]
  · intro other hne
    unfold InodeTime.words
    rw [hsame.hasBase, hsame.hasExtra, u32leAt_copyAt_apart hfit (base_apart hne),
      u32leAt_copyAt_apart hfit (base_extra_apart field other)]

theorem TimeStored.storeExtra (h : TimeStored raw' raw field base extra)
    (hparses : Inode.Parses raw) (hhas : field.hasExtra raw = true) (v : UInt32) :
    TimeStored (copyAt raw' field.extraOffset (u32le v)) raw field base v := by
  have hfit : field.extraOffset + 4 ≤ raw'.length := by
    rw [h.same.length]
    exact extra_fits hparses hhas
  obtain ⟨hsame, hlo, hhi⟩ := @sameAttributes_word raw' _ v hfit (isTimeWord_extra field)
  have hbase : ∀ other : InodeTime, u32leAt (copyAt raw' field.extraOffset (u32le v))
    other.baseOffset = u32leAt raw' other.baseOffset := by
    intro other
    exact u32leAt_copyAt_apart hfit ((base_extra_apart other field).symm)
  refine ⟨hsame.trans h.same, hlo.trans h.sumLo, hhi.trans h.sumHi, ?_, ?_⟩
  · have hwords := h.words
    unfold InodeTime.words at hwords ⊢
    rw [hsame.hasBase, hsame.hasExtra, hbase, u32leAt_copyAt raw' _ v hfit, (Prod.mk.inj hwords).1,
      h.same.hasExtra, hhas, if_pos rfl]
  · intro other hne
    rw [← h.others other hne]
    unfold InodeTime.words
    rw [hsame.hasBase, hsame.hasExtra, hbase, u32leAt_copyAt_apart hfit (extra_apart hne)]

theorem TimeStored.fields (h : TimeStored raw' raw field base extra) :
    FullInode.fields raw' = (FullInode.fields raw).withTime field (unpackSeconds base extra)
      (extra >>> 2) := by
  apply FullInode.ext_times
  · rw [FullInode.untimed_fields h.same, FullInode.checksum_fields h.same h.sumLo h.sumHi,
      FullInode.untimed_withTime]
    rfl
  · intro other
    rw [FullInode.time_withTime, FullInode.time_fields, FullInode.time_fields]
    split
    · rename_i heq
      rw [heq, h.words]
    · rename_i hne
      rw [h.others other hne]
  · intro other
    rw [FullInode.nsec_withTime, FullInode.nsec_fields, FullInode.nsec_fields]
    split
    · rename_i heq
      rw [heq, h.words]
    · rename_i hne
      rw [h.others other hne]

end Store

namespace FullInode

/-- What setting a time to a whole second is to change, over a range as wide as the time's words. -/
def stamped (inode : FullInode) (raw : Bytes) (field : InodeTime) (secs : Int) : FullInode :=
  if field.hasExtra raw then inode.withTime field (clampTime minEncodableTime maxEncodableTime secs)
    0
  else if field.hasBase raw then
    inode.withTime field (clampTime (-2 ^ 31) (2 ^ 31 - 1) secs) (inode.nsec field)
  else inode

/-- What an update is to change: a time without a companion word has no nanoseconds. -/
def updated (inode : FullInode) (raw : Bytes) (field : InodeTime) (update : TimeUpdate) :
    FullInode :=
  match update with
  | .omit => inode
  | .set sec nsec => inode.withTime field sec
      (if field.hasExtra raw then nsec else inode.nsec field)

end FullInode

section Set

variable {raw : Bytes} {field : InodeTime} {secs : Int}

theorem extraFieldFits_extra (hparses : Inode.Parses raw) (field : InodeTime) :
    extraFieldFits raw field.extraOffset = field.hasExtra raw :=
  extraFieldFits_eq hparses (by cases field <;> decide)

theorem extraFieldFits_base (hparses : Inode.Parses raw) :
    (decide (field ≠ .crtime ∨ extraFieldFits raw field.baseOffset = true)) =
      field.hasBase raw := by
  unfold InodeTime.hasBase
  rw [decide_eq_decide]
  by_cases hcrtime : field = .crtime
  · subst hcrtime
    rw [extraFieldFits_eq hparses (by decide), decide_eq_true_eq]
  · exact ⟨fun _ => .inl hcrtime, fun _ => .inl hcrtime⟩

theorem words_snd_of_no_extra (h : field.hasExtra raw = false) : (field.words raw).2 = 0 := by
  unfold InodeTime.words
  rw [h]
  rfl

theorem nsec_of_no_extra (h : field.hasExtra raw = false) : (FullInode.fields raw).nsec
    field = 0 := by
  rw [FullInode.nsec_fields, words_snd_of_no_extra h]
  decide

theorem era_shiftRight (secs : Int) : (packSeconds secs).2 >>> 2 = 0 := by
  apply UInt32.toNat_inj.mp
  rw [UInt32.toNat_shiftRight, packSeconds, toNat_eraBits,
    show (2 : UInt32).toNat % 32 = 2 from rfl, Nat.shiftRight_eq_div_pow]
  exact Nat.div_eq_of_lt (Nat.mod_lt _ (by decide))

theorem minEncodableTime_le : minEncodableTime ≤ maxEncodableTime := by decide

theorem setInodeTime_same (hparses : Inode.Parses raw) (field : InodeTime) (secs : Int) :
    SameAttributes (setInodeTime raw field secs) raw ∧
      FullInode.fields (setInodeTime raw field secs) = (FullInode.fields raw).stamped raw
        field secs := by
  unfold setInodeTime FullInode.stamped
  rw [extraFieldFits_extra hparses]
  have hbase := @extraFieldFits_base raw field hparses
  cases hextra : field.hasExtra raw with
  | true =>
    rw [if_pos rfl, if_pos rfl]
    have hstored := (timeStored_base hparses (hasBase_of_hasExtra hextra)
      (packSeconds (clampTime minEncodableTime maxEncodableTime secs)).1).storeExtra hparses hextra
      (packSeconds (clampTime minEncodableTime maxEncodableTime secs)).2
    obtain ⟨hlow, hhigh⟩ := clampTime_range minEncodableTime_le secs
    have hfields := hstored.fields
    rw [unpackSeconds_packSeconds hlow hhigh, era_shiftRight] at hfields
    exact ⟨hstored.same, hfields⟩
  | false =>
    rw [if_neg Bool.false_ne_true, if_neg Bool.false_ne_true]
    by_cases hwhere : field ≠ .crtime ∨ extraFieldFits raw field.baseOffset = true
    · have hhas : field.hasBase raw = true := by rw [← hbase, decide_eq_true hwhere]
      rw [if_pos hwhere, if_pos hhas]
      obtain ⟨hlow, hhigh⟩ := clampTime_range (show (-2 ^ 31 : Int) ≤ 2 ^ 31 - 1 by decide) secs
      have hstored := timeStored_base hparses hhas (lowWord (clampTime (-2 ^ 31) (2 ^ 31 - 1) secs))
      have hfields := hstored.fields
      rw [words_snd_of_no_extra hextra, unpackSeconds_zero, signedWord_lowWord hlow
        (by omega)] at hfields
      rw [nsec_of_no_extra hextra]
      exact ⟨hstored.same, hfields⟩
    · have hnot : field.hasBase raw = false := by rw [← hbase, decide_eq_false hwhere]
      rw [if_neg hwhere, hnot, if_neg Bool.false_ne_true]
      exact ⟨.refl raw, rfl⟩

end Set

namespace TimeUpdate

/-- What a pair of seconds and nanoseconds asks for, when the clock is at `now`. -/
def requested (sec : Int) (nsec : UInt32) (now : Int) : TimeUpdate :=
  if sec = timeOmit ∨ nsec = utimeOmit then .omit
  else if nsec = utimeNow then .set now 0
  else .set sec nsec

def Storable : TimeUpdate → Prop
  | .omit => True
  | .set sec nsec => (minEncodableTime ≤ sec ∧ sec ≤ maxEncodableTime) ∧ nsec < nsecPerSec

variable {sec now : Int} {nsec : UInt32} {update : TimeUpdate} {raw raw' : Bytes}
  {field : InodeTime}

theorem resolve_ok (hnow : minEncodableTime ≤ now ∧ now ≤ maxEncodableTime)
    (h : resolve sec nsec now = .ok update) : update = requested sec nsec now ∧
    update.Storable := by
  unfold resolve at h
  unfold requested
  split at h
  · rename_i homit
    obtain rfl := Except.ok.inj h
    rw [if_pos homit]
    exact ⟨rfl, trivial⟩
  rename_i homit
  rw [if_neg homit]
  split at h
  · rename_i hclock
    obtain rfl := Except.ok.inj h
    rw [if_pos hclock]
    exact ⟨rfl, hnow, by decide⟩
  rename_i hclock
  rw [if_neg hclock]
  split at h
  · cases h
  rename_i hnsec
  split at h
  · cases h
  rename_i hrange
  obtain rfl := Except.ok.inj h
  obtain ⟨hlow, hhigh⟩ := not_or.mp hrange
  exact ⟨rfl, ⟨Int.not_lt.mp hlow, Int.not_lt.mp hhigh⟩, UInt32.not_le.mp hnsec⟩

theorem store_fields (hparses : Inode.Parses raw) (hbase : field.hasBase raw = true)
    (hstorable : update.Storable) (hcheck : update.check (field.hasExtra raw) = .ok ()) :
    SameAttributes (update.store raw field.baseOffset field.extraOffset (field.hasExtra raw)) raw ∧
      FullInode.fields (update.store raw field.baseOffset field.extraOffset (field.hasExtra raw)) =
        (FullInode.fields raw).updated raw field update := by
  obtain _ | ⟨sec, nsec⟩ := update
  · exact ⟨.refl raw, rfl⟩
  obtain ⟨⟨hlow, hhigh⟩, hnsec⟩ := hstorable
  have htime := unpackSeconds_packSeconds hlow hhigh
  have hstored := timeStored_base hparses hbase (packSeconds sec).1
  unfold store FullInode.updated
  dsimp only
  cases hextra : field.hasExtra raw with
  | true =>
    rw [if_pos rfl, if_pos rfl]
    have hera : (packSeconds sec).2.toNat < 4 := by
      rw [packSeconds, toNat_eraBits]
      exact Nat.mod_lt _ (by decide)
    obtain ⟨hshift, hmask⟩ := packNsecLo_shiftRight hnsec hera
    have hboth := hstored.storeExtra hparses hextra (packNsecLo nsec ||| (packSeconds sec).2)
    have hsecs : unpackSeconds (packSeconds sec).1 (packNsecLo nsec ||| (packSeconds sec).2) =
        sec := by
      calc unpackSeconds (packSeconds sec).1 (packNsecLo nsec ||| (packSeconds sec).2)
          = unpackSeconds (packSeconds sec).1 (packSeconds sec).2 := by
            unfold unpackSeconds
            rw [hmask, toNat_eraBits, Nat.mod_eq_of_lt hera]
        _ = sec := htime
    have hfields := hboth.fields
    rw [hsecs, hshift] at hfields
    exact ⟨hboth.same, hfields⟩
  | false =>
    rw [if_neg Bool.false_ne_true, if_neg Bool.false_ne_true]
    have hera : (packSeconds sec).2 = 0 := by
      unfold check at hcheck
      dsimp only at hcheck
      split at hcheck
      · cases hcheck
      · rename_i hno
        by_contra hne
        exact hno ⟨hne, hextra⟩
    have hfields := hstored.fields
    rw [hera] at htime
    rw [words_snd_of_no_extra hextra, htime] at hfields
    rw [nsec_of_no_extra hextra]
    exact ⟨hstored.same, hfields⟩

end TimeUpdate

theorem declaresExtra_eq {raw : Bytes} (hparses : Inode.Parses raw) {need : Nat}
    (hneed : 4 < need) :
    declaresExtra raw need = decide
      (inodeExtraOffset + need ≤ inodeExtraOffset + extraIsize raw) := by
  have hle := extraIsize_le hparses
  have hdef : extraIsize raw = if inodeExtraOffset + 4 ≤ raw.length
    then (u16leAt raw 0x80).toNat else 0 := rfl
  have h128 : inodeExtraOffset = 128 := rfl
  unfold declaresExtra
  rw [decide_eq_decide]
  split at hdef
  · rw [if_pos (by omega)]
    omega
  · omega

namespace FullInode

variable {raw raw' : Bytes} (inode : FullInode) (field : InodeTime)

theorem updated_congr (h : SameAttributes raw' raw) (update : TimeUpdate) :
    inode.updated raw' field update = inode.updated raw field update := by
  obtain _ | ⟨sec, nsec⟩ := update
  · rfl
  · unfold updated
    rw [h.hasExtra]

theorem stamped_congr (h : SameAttributes raw' raw) (secs : Int) :
    inode.stamped raw' field secs = inode.stamped raw field secs := by
  unfold stamped
  rw [h.hasExtra, h.hasBase]

theorem fields_summed (lo hi : UInt16) (hlen : inodeBaseSize ≤ raw.length) :
    fields (Checksummer.summed raw lo hi) =
      (fields raw).withChecksum (fields (Checksummer.summed raw lo hi)).checksum := by
  have hagree : ∀ {start stop : Nat}, (stop ≤ 0x7C ∨ 0x7E ≤ start) → (stop ≤ 0x82 ∨ 0x84 ≤ start) →
      AgreeOn (Checksummer.summed raw lo hi) raw start stop :=
    fun h1 h2 => Checksummer.agreeOn_summed raw lo hi hlen h1 h2
  have hsame : SameAttributes (Checksummer.summed raw lo hi) raw :=
    ⟨Checksummer.length_summed raw lo hi hlen, hagree (.inl (by decide)) (.inl (by decide)),
      hagree (.inl (by decide)) (.inl (by decide)), hagree (.inr (by decide)) (.inl (by decide))⟩
  have hword : ∀ off, IsTimeWord off → u32leAt (Checksummer.summed raw lo hi) off =
      u32leAt raw off := by
    intro off hoff
    refine (@hagree off (off + 4) ?_ ?_).u32leAt off (Nat.le_refl _) (Nat.le_refl _)
    · unfold IsTimeWord at hoff
      omega
    · unfold IsTimeWord at hoff
      omega
  have hwords : ∀ other : InodeTime, other.words (Checksummer.summed raw lo hi) =
      other.words raw := by
    intro other
    unfold InodeTime.words
    rw [hsame.hasBase, hsame.hasExtra, hword _ (isTimeWord_base other),
      hword _ (isTimeWord_extra other)]
  apply ext_times
  · exact untimed_fields hsame
  · intro other
    rw [time_fields, hwords, ← time_fields, time_withChecksum]
  · intro other
    rw [nsec_fields, hwords, ← nsec_fields, nsec_withChecksum]

end FullInode

namespace FullInode

variable (inode : FullInode) (raw : Bytes) (field : InodeTime)

@[simp] theorem toInode_withTime (sec : Int) (nsec : UInt32) :
    (inode.withTime field sec nsec).toInode = inode.toInode := by
  cases field <;> rfl

@[simp] theorem toInode_withChecksum (checksum : Nat) : (inode.withChecksum checksum).toInode =
  inode.toInode := rfl

@[simp] theorem toInode_updated (update : TimeUpdate) : (inode.updated raw field update).toInode =
  inode.toInode := by
  obtain _ | ⟨sec, nsec⟩ := update
  · rfl
  · exact toInode_withTime _ _ _ _

@[simp] theorem toInode_stamped (secs : Int) : (inode.stamped raw field secs).toInode =
  inode.toInode := by
  unfold stamped
  split
  · exact toInode_withTime _ _ _ _
  · split
    · exact toInode_withTime _ _ _ _
    · rfl

def retimed (atime mtime : TimeUpdate) (now : Int) : FullInode :=
  ((inode.updated raw .atime atime).updated raw .mtime mtime).stamped raw .ctime now

@[simp] theorem toInode_retimed (atime mtime : TimeUpdate) (now : Int) :
    (inode.retimed raw atime mtime now).toInode = inode.toInode := by
  simp [retimed]

end FullInode

theorem storeTimes_ok {raw raw' : Bytes} {atime mtime : TimeUpdate} {now : Int}
    (hparses : Inode.Parses raw) (hatime : atime.Storable) (hmtime : mtime.Storable)
      (h : storeTimes raw atime mtime now = .ok raw') :
    SameAttributes raw' raw ∧
      FullInode.fields raw' = (FullInode.fields raw).retimed raw atime mtime now := by
  have hahas : declaresExtra raw 16 = InodeTime.atime.hasExtra raw :=
    declaresExtra_eq hparses (by decide)
  have hmhas : declaresExtra raw 12 = InodeTime.mtime.hasExtra raw :=
    declaresExtra_eq hparses (by decide)
  unfold storeTimes at h
  dsimp only at h
  rw [hahas, hmhas] at h
  obtain ⟨_, hacheck, h⟩ := Result.bind_eq_ok h
  obtain ⟨_, hmcheck, h⟩ := Result.bind_eq_ok h
  obtain rfl := Except.ok.inj h
  have habase : InodeTime.atime.hasBase raw = true := rfl
  obtain ⟨hsame₁, hfields₁⟩ := TimeUpdate.store_fields hparses habase hatime hacheck
  have hparses₁ := hsame₁.parses hparses
  rw [← hsame₁.hasExtra .mtime] at hmcheck
  have hmbase : InodeTime.mtime.hasBase
      (atime.store raw InodeTime.atime.baseOffset InodeTime.atime.extraOffset
        (InodeTime.atime.hasExtra raw)) = true := rfl
  obtain ⟨hsame₂, hfields₂⟩ := TimeUpdate.store_fields hparses₁ hmbase hmtime hmcheck
  rw [hsame₁.hasExtra .mtime] at hsame₂ hfields₂
  obtain ⟨hsame₃, hfields₃⟩ := setInodeTime_same (hsame₂.parses hparses₁) .ctime now
  refine ⟨hsame₃.trans (hsame₂.trans hsame₁), ?_⟩
  unfold FullInode.retimed
  rw [FullInode.stamped_congr _ _ (hsame₂.trans hsame₁), hfields₂, hfields₁,
    FullInode.updated_congr _ _ hsame₁] at hfields₃
  exact hfields₃

namespace Mount

section Utimens

variable {crc : Crc} {m m' : Mount} {d d' : Disk} {now : Int} {r : InodeRef} {inode : Inode}
  {raw new : Bytes} {atimeSec mtimeSec : Int} {atimeNsec mtimeNsec : UInt32}

theorem liveInode_ok (h : m.liveInode crc d r = .ok (inode, raw)) :
    m.readInodeVerified crc d r.ino = .ok (inode, raw) := by
  unfold liveInode at h
  simp only [throw, throwThe, MonadExceptOf.throw] at h
  split at h
  · cases h
  obtain ⟨set, -, h⟩ := Result.bind_eq_ok h
  split at h
  · cases h
  obtain ⟨⟨inode', raw'⟩, hread, h⟩ := Result.bind_eq_ok h
  dsimp only at h
  split at h
  · cases h
  split at h
  · cases h
  · obtain ⟨rfl, rfl⟩ := Prod.mk.inj (Except.ok.inj h)
    exact hread

theorem utimensInode_ok (hnow : minEncodableTime ≤ now ∧ now ≤ maxEncodableTime)
    {stored : Option Bytes}
    (h : m.utimensInode crc d now r atimeSec atimeNsec mtimeSec mtimeNsec = .ok stored) :
    ∃ inode raw, m.liveInode crc d r = .ok (inode, raw) ∧
      (stored = none → TimeUpdate.requested atimeSec atimeNsec now = .omit ∧
        TimeUpdate.requested mtimeSec mtimeNsec now = .omit) ∧
      ∀ new, stored = some new →
        ¬ (TimeUpdate.requested atimeSec atimeNsec now = .omit ∧
          TimeUpdate.requested mtimeSec mtimeNsec now = .omit) ∧
        new.length = raw.length ∧ Inode.Parses new ∧
        FullInode.fields new = ((FullInode.fields raw).retimed raw
          (TimeUpdate.requested atimeSec atimeNsec now)
            (TimeUpdate.requested mtimeSec mtimeNsec now)
          now).withChecksum (FullInode.fields new).checksum ∧
        (m.csum.enabled = true → m.csum.verifyInode crc r.ino inode.generation new = true) := by
  unfold utimensInode at h
  obtain ⟨atime, hatime, h⟩ := Result.bind_eq_ok h
  obtain ⟨mtime, hmtime, h⟩ := Result.bind_eq_ok h
  obtain ⟨⟨inode, raw⟩, hlive, h⟩ := Result.bind_eq_ok h
  obtain ⟨rfl, hastorable⟩ := TimeUpdate.resolve_ok hnow hatime
  obtain ⟨rfl, hmstorable⟩ := TimeUpdate.resolve_ok hnow hmtime
  obtain ⟨block, off, hat⟩ := readInodeVerified_ok (liveInode_ok hlive)
  obtain ⟨hparses, -⟩ := Inode.parse_eq_ok.mp hat.parsed
  refine ⟨inode, raw, hlive, ?_⟩
  dsimp only at h
  split at h
  · rename_i homit
    obtain rfl := Except.ok.inj h
    exact ⟨fun _ => homit, fun _ hno => nomatch hno⟩
  rename_i homit
  obtain ⟨raw', hstore, h⟩ := Result.bind_eq_ok h
  obtain rfl := Except.ok.inj h
  refine ⟨fun hno => absurd hno (by simp), fun new hnew => ?_⟩
  obtain rfl := Option.some.inj hnew
  obtain ⟨hsame, hfields⟩ := storeTimes_ok hparses hastorable hmstorable hstore
  obtain ⟨hlen, ⟨hparses', -⟩, hchecked⟩ :=
    m.csum.dirInode_ok crc r.ino inode.generation (hsame.parses hparses)
  refine ⟨homit, hlen.trans hsame.length, hparses', ?_, hchecked⟩
  unfold finalizeInodeRaw
  rw [← hfields]
  split
  · rename_i henabled
    obtain ⟨lo, hi, -, hpatch⟩ := m.csum.patchInodeChecksum_eq crc r.ino inode.generation
      raw' henabled (hsame.parses hparses).base
    rw [hpatch]
    exact FullInode.fields_summed lo hi (hsame.parses hparses).base
  · rfl

end Utimens

end Mount

namespace Mount

section Commit

variable {crc : Crc} {m m' : Mount} {d d' : Disk} {ino : UInt32} {old inode : Inode}
  {raw new : Bytes} {buf : BlockBuffer} {block off : Nat}

theorem bufferWriteInode_new (h : m.bufferWriteInode d BlockBuffer.new ino new = .ok buf)
    (hloc : locateInode m.fs.sb m.fs.groups ino = .ok (block, off)) :
    ∃ bytes, buf.dirty.entries = [(block, bytes)] := by
  unfold bufferWriteInode at h
  obtain ⟨⟨block', off'⟩, hloc', hedit⟩ := Result.bind_eq_ok h
  obtain ⟨rfl, rfl⟩ := Prod.mk.inj (Except.ok.inj (hloc.symm.trans hloc'))
  obtain ⟨⟨bytes, buf₁⟩, hget, hput⟩ := Result.bind_eq_ok hedit
  obtain rfl := Except.ok.inj hput
  have hnone : BlockBuffer.new.dirty.get? block = none := rfl
  unfold BlockBuffer.getMut at hget
  rw [hnone] at hget
  obtain ⟨bytes', -, hget⟩ := Result.bind_eq_ok hget
  obtain ⟨-, rfl⟩ := Prod.mk.inj (Except.ok.inj hget)
  refine ⟨copyAt bytes off new, ?_⟩
  change insertSorted block _ [(block, bytes')] = _
  rw [insertSorted, if_neg (Nat.lt_irrefl block), if_pos rfl]

theorem commitInodeWrite_reads (h : Consistent crc m d)
    (hread : m.readInodeVerified crc d ino = .ok (old, raw)) (hlen : new.length = raw.length)
    (hparsed : Inode.parse new = .ok inode)
    (hchecked : m.csum.enabled = true → m.csum.verifyInode crc ino inode.generation new = true)
    (hdir : inode.isDir = true → old.isDir = true ∧ inode.size = old.size) {res : Result Unit}
    (hcommit : m.commitInodeWrite crc d ino new = (res, m', d')) :
    m'.readInodeVerified crc d' ino =
      match res with
      | .ok () => .ok (inode, new)
      | .error _ => .ok (old, raw) := by
  obtain ⟨block, off, hold⟩ := readInodeVerified_ok hread
  unfold commitInodeWrite at hcommit
  cases hwrite : m.bufferWriteInode d BlockBuffer.new ino new with
  | error e =>
    rw [hwrite] at hcommit
    obtain ⟨rfl, hrest⟩ := Prod.mk.inj hcommit
    obtain ⟨rfl, rfl⟩ := Prod.mk.inj hrest
    exact hread
  | ok buf =>
    rw [hwrite] at hcommit
    dsimp only at hcommit
    obtain ⟨ho, hat, -⟩ := (h.coherent.isOpen .new).storeInode h hold hlen hparsed hchecked hwrite
    obtain ⟨r, m₁, d₁, hexec, hfs, hcsum, hsize⟩ := @commitBlockBuffer_answers crc m buf d
    rw [hexec] at hcommit
    obtain ⟨rfl, hrest⟩ := Prod.mk.inj hcommit
    obtain ⟨rfl, rfl⟩ := Prod.mk.inj hrest
    cases r with
    | ok a => exact (ho.committed h.coherent hexec).readInodeVerified h hread hat hdir
    | error e =>
      obtain ⟨bytes, hone⟩ := bufferWriteInode_new hwrite hold.located
      obtain ⟨h64, hfits⟩ := readInodeVerified_fits hread hold.located
      have hbs := blockSize_ge m.fs.sb
      have hkeep := commitBlockBuffer_one_error hone ho.coherent.whole
        (h.inode_isMetadata hold.located).2.2 (by
          refine Nat.lt_of_le_of_lt ?_ h64
          exact Nat.le_mul_of_pos_right _ (by omega))
        (fun jw hjw => (h.coherent.offJournal jw hjw).1) hfits hexec
      have hat' : InodeAt crc m (d₁.img.block m.fs.sb.blockSize) ino block off old raw :=
        ⟨hold.located, by rw [hkeep]; exact hold.fits, by rw [hkeep]; exact hold.stored,
          hold.parsed, hold.checked⟩
      rw [readInodeVerified_congr hfs hcsum]
      exact readInodeVerified_of_at hat' h64 (by rw [hsize]; exact hfits)
        (readInodeVerified_ceiling hread)

theorem applyUtimensIno_commits {now : Int} {r : InodeRef} {atimeSec mtimeSec : Int}
    {atimeNsec mtimeNsec : UInt32} {res : Result Unit}
    (hstored : m.utimensInode crc d now r atimeSec atimeNsec mtimeSec mtimeNsec = .ok (some new))
    (hwrite : m.bufferWriteInode d BlockBuffer.new r.ino new = .ok buf)
    (hcommit : (m.commitBlockBuffer crc buf).exec d = (.ok (res, m'), d')) :
    m.applyUtimensIno crc d now r atimeSec atimeNsec mtimeSec mtimeNsec = (res, m', d') := by
  unfold applyUtimensIno
  rw [hstored]
  unfold commitInodeWrite
  dsimp only
  rw [hwrite]
  dsimp only
  rw [hcommit]

end Commit

/-- Setting a time changes that time alone, to the nearest second its words hold. A call with the
clock in their range that fails leaves the inode as it was; one that succeeds writes nothing if both
times are left out, and else stores exactly the times asked for, and `ctime` as set to the clock. -/
theorem timestamps_survive (crc : Crc) :
    (∀ raw inode, FullInode.parse raw = .ok inode → ∀ field secs,
      FullInode.parse (setInodeTime raw field secs) = .ok (inode.stamped raw field secs)) ∧
    ∀ (m m' : Mount) (d d' : Disk) (now : Int) (r : InodeRef) (atimeSec : Int) (atimeNsec : UInt32)
      (mtimeSec : Int) (mtimeNsec : UInt32) (res : Result Unit), Consistent crc m d →
      minEncodableTime ≤ now ∧ now ≤ maxEncodableTime →
      m.applyUtimensIno crc d now r atimeSec atimeNsec mtimeSec mtimeNsec = (res, m', d') →
      match res with
      | .error _ => m'.readInodeVerified crc d' r.ino = m.readInodeVerified crc d r.ino
      | .ok () =>
        (TimeUpdate.requested atimeSec atimeNsec now = .omit ∧
          TimeUpdate.requested mtimeSec mtimeNsec now = .omit ∧ m' = m ∧ d' = d) ∨
        ∃ old new raw raw', m.readInodeVerified crc d r.ino = .ok (old.toInode, raw) ∧
          FullInode.parse raw = .ok old ∧ m'.readInodeVerified crc d' r.ino =
            .ok (new.toInode, raw') ∧
          FullInode.parse raw' = .ok new ∧
          new = (old.retimed raw (TimeUpdate.requested atimeSec atimeNsec now)
            (TimeUpdate.requested mtimeSec mtimeNsec now) now).withChecksum new.checksum := by
  constructor
  · intro raw inode hparse field secs
    obtain ⟨hparses, rfl⟩ := FullInode.parse_eq_ok.mp hparse
    obtain ⟨hsame, hfields⟩ := setInodeTime_same hparses field secs
    exact FullInode.parse_eq_ok.mpr ⟨hsame.parses hparses, hfields.symm⟩
  · intro m m' d d' now r atimeSec atimeNsec mtimeSec mtimeNsec res h hnow hrun
    unfold applyUtimensIno at hrun
    cases hstored : m.utimensInode crc d now r atimeSec atimeNsec mtimeSec mtimeNsec with
    | error e =>
      rw [hstored] at hrun
      obtain ⟨rfl, hrest⟩ := Prod.mk.inj hrun
      obtain ⟨rfl, rfl⟩ := Prod.mk.inj hrest
      rfl
    | ok stored =>
      obtain ⟨inode, raw, hlive, hnone, hsome⟩ := utimensInode_ok hnow hstored
      have hread := liveInode_ok hlive
      obtain ⟨block, off, hat⟩ := readInodeVerified_ok hread
      obtain ⟨hparses, rfl⟩ := Inode.parse_eq_ok.mp hat.parsed
      rw [hstored] at hrun
      cases stored with
      | none =>
        obtain ⟨rfl, hrest⟩ := Prod.mk.inj hrun
        obtain ⟨rfl, rfl⟩ := Prod.mk.inj hrest
        obtain ⟨hatime, hmtime⟩ := hnone rfl
        exact .inl ⟨hatime, hmtime, rfl, rfl⟩
      | some new =>
        obtain ⟨-, hlen, hparsesNew, hfields, hchecked⟩ := hsome new rfl
        have hinode : Inode.fields new = Inode.fields raw := by
          have hto := congrArg FullInode.toInode hfields
          rw [FullInode.toInode_withChecksum, FullInode.toInode_retimed] at hto
          exact hto
        have hreads := commitInodeWrite_reads h hread hlen
          (Inode.parse_eq_ok.mpr ⟨hparsesNew, hinode.symm⟩) hchecked (fun hdir => ⟨hdir, rfl⟩) hrun
        cases res with
        | error e => exact hreads.trans hread.symm
        | ok a =>
          refine .inr ⟨FullInode.fields raw, FullInode.fields new, raw, new, hread,
            FullInode.parse_eq_ok.mpr ⟨hparses, rfl⟩, ?_, FullInode.parse_eq_ok.mpr
              ⟨hparsesNew, rfl⟩,
            hfields⟩
          rw [FullInode.fields_toInode, hinode]
          exact hreads

end Mount

namespace Mount

theorem wide_bit_twelve : wideGroup.inodeBitIsSet wideDisk 12 = .ok true := by
  have hread : wideGroup.fs.reader wideDisk 3 = .ok (wideDisk.img.block 8192 3) :=
    Filesystem.reader_of_fits wideGroup.fs wideDisk 3 (by decide) (by decide)
  have hgroups : wideGroup.allocationGroups = [⟨2, 3, 4, 65531, 5, 1, 0⟩] := by decide
  have hbit : bitIsSet (wideDisk.img.block 8192 3) 11 = true := by decide +kernel
  unfold inodeBitIsSet
  rw [if_neg (by decide), hgroups]
  change (if (0 : UInt16) &&& inodeUninit ≠ 0 then _ else wideGroup.fs.reader wideDisk 3 >>= _) = _
  rw [if_neg (by decide), hread]
  exact congrArg Except.ok hbit

theorem wide_live : wideGroup.liveInode linuxCrc32c wideDisk ⟨12, none⟩ =
    .ok (Inode.fields wideFile, wideFile) := by
  have hlinks : (Inode.fields wideFile).linksCount = 1 := by decide
  have hmode : (Inode.fields wideFile).mode = 0x81A4 := by decide
  unfold liveInode
  rw [if_neg (by decide)]
  dsimp only
  rw [wide_bit_twelve, wide_inode]
  simp only [bind, Except.bind, pure, Except.pure]
  rw [if_neg (by decide), hlinks, hmode]
  rfl

theorem wide_extraIsize : extraIsize wideFile = 32 := by
  unfold extraIsize
  rw [if_pos (by rw [length_wideFile]; decide), wide_extra]
  rfl

theorem wide_hasExtra (field : InodeTime) : field.hasExtra wideFile = true := by
  unfold InodeTime.hasExtra
  rw [wide_extraIsize]
  cases field <;> decide

theorem wide_ctime_words : InodeTime.words wideFile .ctime = (0, 0) := by
  have hbase : u32leAt wideFile 0x0C = 0 := by decide
  have hword : u32leAt wideFile 0x84 = 0 := by decide
  unfold InodeTime.words
  rw [wide_hasExtra]
  exact congrArg₂ Prod.mk hbase hword

/-- With both times left out a call succeeds and leaves `ctime`, whatever the clock says. -/
theorem omitted_times_leave_ctime :
    wideGroup.applyUtimensIno linuxCrc32c wideDisk 1000 ⟨12, none⟩ timeOmit 0 timeOmit 0 =
        (.ok (), wideGroup, wideDisk) ∧
      wideGroup.readInodeVerified linuxCrc32c wideDisk 12 = .ok (Inode.fields wideFile, wideFile) ∧
      FullInode.parse wideFile = .ok (FullInode.fields wideFile) ∧
      (FullInode.fields wideFile).ctime = 0 := by
  refine ⟨?_, wide_inode, FullInode.parse_eq_ok.mpr ⟨wide_parses, rfl⟩,
    (FullInode.time_fields wideFile .ctime).trans (by rw [wide_ctime_words]; decide)⟩
  have hnone : wideGroup.utimensInode linuxCrc32c wideDisk 1000 ⟨12, none⟩ timeOmit 0 timeOmit 0 =
      .ok none := by
    have homit : TimeUpdate.resolve timeOmit 0 1000 = .ok .omit := by decide
    unfold utimensInode
    rw [homit, Result.ok_bind, Result.ok_bind, wide_live, Result.ok_bind]
    rfl
  unfold applyUtimensIno
  rw [hnone]

theorem wide_utimensInode {raw₁ : Bytes}
    (hstore : storeTimes wideFile (.set (-5) 7) .omit 1000 = .ok raw₁) :
    wideGroup.utimensInode linuxCrc32c wideDisk 1000 ⟨12, none⟩ (-5) 7 0 utimeOmit =
      .ok (some (wideGroup.finalizeInodeRaw linuxCrc32c 12 (Inode.fields wideFile).generation
        raw₁)) := by
  have hatime : TimeUpdate.resolve (-5) 7 1000 = .ok (.set (-5) 7) := by decide
  have hmtime : TimeUpdate.resolve 0 utimeOmit 1000 = .ok .omit := by decide
  unfold utimensInode
  rw [hatime, Result.ok_bind, hmtime, Result.ok_bind, wide_live]
  rw [Result.ok_bind]
  have hnot : ¬ (TimeUpdate.set (-5) 7 = .omit ∧ TimeUpdate.omit = .omit) := by
    rintro ⟨hno, -⟩
    cases hno
  change (if TimeUpdate.set (-5) 7 = .omit ∧ TimeUpdate.omit = .omit then pure none else
    storeTimes wideFile (.set (-5) 7) .omit 1000 >>= fun raw => pure (some _)) = _
  rw [if_neg hnot, hstore]
  rfl

theorem wide_utimens : ∃ m' d',
    wideGroup.applyUtimensIno linuxCrc32c wideDisk 1000 ⟨12, none⟩ (-5) 7 0 utimeOmit =
      (.ok (), m', d') := by
  have hcheck : ∀ has, TimeUpdate.check (.set (-5) 7) has = .ok () := by decide
  obtain ⟨raw₁, hstore⟩ : ∃ raw₁, storeTimes wideFile (.set (-5) 7) .omit 1000 = .ok raw₁ := by
    generalize wideFile = raw
    unfold storeTimes
    dsimp only
    rw [hcheck, Result.ok_bind]
    exact ⟨_, rfl⟩
  have hstored := wide_utimensInode hstore
  generalize wideGroup.finalizeInodeRaw linuxCrc32c 12 (Inode.fields wideFile).generation raw₁ =
    new at hstored
  obtain ⟨inode, raw, hlive, -, hsome⟩ := utimensInode_ok (by decide) hstored
  obtain ⟨-, hlen, hparses, hfields, hchecked⟩ := hsome new rfl
  obtain ⟨block, off, hold⟩ := readInodeVerified_ok (liveInode_ok hlive)
  obtain ⟨buf, hwrite, hkept⟩ := exists_edit BlockBuffer.new
    (wide_reader (show 4 < 65536 by decide)) (fun table => copyAt table 2816 new)
  have hwithin := hkept 65536 (BlockBuffer.within_new _) (by decide)
  have hlocated : Result.Ends (fun at_ => at_ = (4, 2816))
      (locateInode wideGroup.fs.sb wideGroup.fs.groups 12) := by
    decide
  obtain ⟨at_, hloc, rfl⟩ := hlocated.exists_ok
  have hstage : wideGroup.bufferWriteInode wideDisk BlockBuffer.new 12 new = .ok buf := by
    revert hwrite
    generalize BlockBuffer.new = empty
    intro hwrite
    unfold bufferWriteInode
    rw [hloc]
    exact hwrite
  have hto := congrArg FullInode.toInode hfields
  rw [FullInode.toInode_withChecksum, FullInode.toInode_retimed, FullInode.fields_toInode,
    FullInode.fields_toInode, ← (Inode.parse_eq_ok.mp hold.parsed).2] at hto
  obtain ⟨ho, -, -⟩ := (wide_consistent.coherent.isOpen .new).storeInode wide_consistent hold hlen
    (Inode.parse_eq_ok.mpr ⟨hparses, rfl⟩) (by rw [hto]; exact hchecked) hstage
  obtain ⟨m', d', hcommit, -⟩ : ∃ m' d',
      (wideGroup.commitBlockBuffer linuxCrc32c buf).exec wideDisk = (.ok (.ok (), m'), d') ∧ _ :=
    commitBlockBuffer_succeeds rfl ho.coherent.whole
      (fun b hb => Nat.mul_le_mul_right 8192 (hwithin b hb))
  exact ⟨m', d', applyUtimensIno_commits hstored hstage hcommit⟩

/-- A time past 2038 is kept whole, one past the extra words' range is cut, and one before 1970 is
stored as asked with its nanoseconds, beside the new `ctime`. -/
theorem timestamps_survive_wide :
    FullInode.parse (setInodeTime wideFile .mtime (2 ^ 33)) =
        .ok ((FullInode.fields wideFile).withTime .mtime (2 ^ 33) 0) ∧
      FullInode.parse (setInodeTime wideFile .crtime (2 ^ 40)) =
        .ok ((FullInode.fields wideFile).withTime .crtime maxEncodableTime 0) ∧
      ∃ (m' : Mount) (d' : Disk) (new : FullInode) (raw' : Bytes),
        m'.readInodeVerified linuxCrc32c d' 12 = .ok (new.toInode, raw') ∧
        FullInode.parse raw' = .ok new ∧ new.atime = -5 ∧ new.atimeNsec = 7 ∧ new.ctime = 1000 ∧
          new.ctimeNsec = 0 ∧ new.mtime = (FullInode.fields wideFile).mtime := by
  have hparse : FullInode.parse wideFile = .ok (FullInode.fields wideFile) :=
    FullInode.parse_eq_ok.mpr ⟨wide_parses, rfl⟩
  have hset := (timestamps_survive linuxCrc32c).1 wideFile _ hparse
  refine ⟨?_, ?_, ?_⟩
  · have hmtime := hset .mtime (2 ^ 33)
    rw [FullInode.stamped, wide_hasExtra] at hmtime
    exact hmtime
  · have hcrtime := hset .crtime (2 ^ 40)
    rw [FullInode.stamped, wide_hasExtra] at hcrtime
    exact hcrtime
  · obtain ⟨m', d', hrun⟩ := wide_utimens
    rcases (timestamps_survive linuxCrc32c).2 wideGroup m' wideDisk d' 1000 ⟨12, none⟩
      (-5) 7 0 utimeOmit _
      wide_consistent (by decide) hrun with ⟨homit, -⟩ | ⟨old, new, raw, raw', hold, hparsed,
      hread, hnew, heq⟩
    · exact absurd homit (by decide)
    · obtain ⟨-, rfl⟩ := Prod.mk.inj (Except.ok.inj (hold.symm.trans wide_inode))
      obtain rfl := Except.ok.inj (hparsed.symm.trans hparse)
      have htime : ∀ field, new.time field = _ := fun field => congrArg (FullInode.time · field) heq
      have hnsec : ∀ field, new.nsec field = _ := fun field => congrArg (FullInode.nsec · field) heq
      have hatime : TimeUpdate.requested (-5) 7 1000 = .set (-5) 7 := by decide
      have hmtime : TimeUpdate.requested 0 utimeOmit 1000 = .omit := by decide
      have hupdated : (FullInode.fields wideFile).updated wideFile .atime (.set (-5) 7) =
          (FullInode.fields wideFile).withTime .atime (-5) 7 := by
        rw [FullInode.updated, wide_hasExtra, if_pos rfl]
      rw [hatime, hmtime, FullInode.retimed, FullInode.stamped, wide_hasExtra,
        hupdated] at htime hnsec
      exact ⟨m', d', new, raw', hread, hnew, htime .atime, hnsec .atime, htime .ctime, hnsec .ctime,
        htime .mtime⟩

end Mount

end FsExt4
