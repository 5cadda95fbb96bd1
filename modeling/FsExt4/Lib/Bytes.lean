import Mathlib.Data.List.Basic
import Mathlib.Data.List.GetD
import Mathlib.Data.List.TakeDrop
import Mathlib.Tactic.Ring

namespace FsExt4.Lib

abbrev Bytes := List UInt8

def slice (b : Bytes) (off n : Nat) : Bytes := (b.drop off).take n

/-- Overwrite in place: `b[off..off + src.len()].copy_from_slice(src)`. -/
def copyAt (b : Bytes) (off : Nat) (src : Bytes) : Bytes :=
  b.take off ++ src ++ b.drop (off + src.length)

@[simp] theorem length_slice (b : Bytes) (off n : Nat) :
    (slice b off n).length = min n (b.length - off) := by
  simp [slice]

theorem length_slice_of_le (b : Bytes) (off n : Nat) (h : off + n ≤ b.length) :
    (slice b off n).length = n := by
  simp only [length_slice]
  omega

theorem slice_zero_of_length_le (b : Bytes) (n : Nat) (h : b.length ≤ n) : slice b 0 n = b := by
  simp [slice, List.take_of_length_le h]

theorem slice_append_left (a b : Bytes) (off n : Nat) (h : off + n ≤ a.length) :
    slice (a ++ b) off n = slice a off n := by
  have hd : off ≤ a.length := by omega
  simp only [slice, List.drop_append_of_le_length hd]
  exact List.take_append_of_le_length (by simp; omega)

theorem slice_append_right (a b : Bytes) (off n : Nat) (h : a.length ≤ off) :
    slice (a ++ b) off n = slice b (off - a.length) n := by
  simp only [slice, List.drop_append, List.drop_eq_nil_of_le h, List.nil_append]

@[simp] theorem length_copyAt (b : Bytes) (off : Nat) (src : Bytes)
    (h : off + src.length ≤ b.length) : (copyAt b off src).length = b.length := by
  simp only [copyAt, List.length_append, List.length_take, List.length_drop]
  omega

theorem slice_copyAt_self (b : Bytes) (off : Nat) (src : Bytes)
    (h : off + src.length ≤ b.length) : slice (copyAt b off src) off src.length = src := by
  have hl : (b.take off).length = off := by simp; omega
  rw [copyAt, List.append_assoc, slice_append_right _ _ _ _ (by omega), hl, Nat.sub_self,
    slice_append_left _ _ _ _ (by omega)]
  exact slice_zero_of_length_le src _ le_rfl

theorem copyAt_append (a b src : Bytes) :
    copyAt (a ++ b) a.length src = a ++ (src ++ b.drop src.length) := by
  rw [copyAt, List.take_left, List.drop_append, List.drop_eq_nil_of_le (Nat.le_add_right _ _),
    List.nil_append, Nat.add_sub_cancel_left, List.append_assoc]

theorem copyAt_next {a b src : Bytes} {off : Nat} (h : off = a.length) :
    copyAt (a ++ b) off src = (a ++ src) ++ b.drop src.length := by
  rw [h, copyAt_append, List.append_assoc]

theorem slice_copyAt_of_le (b : Bytes) (off : Nat) (src : Bytes) (o n : Nat)
    (hoff : off ≤ b.length) (h : o + n ≤ off) : slice (copyAt b off src) o n = slice b o n := by
  have hl : (b.take off).length = off := by simp; omega
  rw [copyAt, List.append_assoc, slice_append_left _ _ _ _ (by omega)]
  have hsplit : slice b o n = slice (b.take off ++ b.drop off) o n := by
    rw [List.take_append_drop]
  rw [hsplit, slice_append_left _ _ _ _ (by omega)]

theorem slice_copyAt_of_ge (b : Bytes) (off : Nat) (src : Bytes) (o n : Nat)
    (hoff : off ≤ b.length) (h : off + src.length ≤ o) :
    slice (copyAt b off src) o n = slice b o n := by
  have hl : (b.take off ++ src).length = off + src.length := by simp; omega
  rw [copyAt, slice_append_right _ _ _ _ (by omega), hl]
  simp only [slice, List.drop_drop]
  congr 2
  omega

theorem slice_copyAt_disjoint (b : Bytes) (off : Nat) (src : Bytes) (o n : Nat)
    (hoff : off ≤ b.length) (h : o + n ≤ off ∨ off + src.length ≤ o) :
    slice (copyAt b off src) o n = slice b o n := by
  obtain h | h := h
  · exact slice_copyAt_of_le b off src o n hoff h
  · exact slice_copyAt_of_ge b off src o n hoff h

theorem slice_slice (b : Bytes) (o n p m : Nat) (h : p + m ≤ n) :
    slice (slice b o n) p m = slice b (o + p) m := by
  simp only [slice, List.drop_take, List.drop_drop, List.take_take]
  congr 1
  omega

theorem slice_add (b : Bytes) (off m n : Nat) : slice b off (m + n) = slice b off m ++ slice b
    (off + m) n := by
  simp only [slice, List.take_add, List.drop_drop]

theorem getD_eq_of_slice_eq (a b : Bytes) (off n i : Nat) (h : slice a off n = slice b off n)
    (hi : off ≤ i) (hn : i < off + n) : a.getD i 0 = b.getD i 0 := by
  have hg := congrArg (fun l : Bytes => l.getD (i - off) 0) h
  simp only [slice, List.getD_eq_getElem?_getD, List.getElem?_take, List.getElem?_drop] at hg
  have hlt : i - off < n := by omega
  have hadd : off + (i - off) = i := by omega
  simpa only [if_pos hlt, hadd, List.getD_eq_getElem?_getD] using hg

theorem getElem?_copyAt (b : Bytes) (off : Nat) (src : Bytes) (i : Nat)
    (h : off + src.length ≤ b.length) :
    (copyAt b off src)[i]? = if off ≤ i ∧ i < off + src.length then src[i - off]? else b[i]? := by
  have hl : (b.take off).length = off := by simp; omega
  rw [copyAt, List.append_assoc]
  by_cases h1 : i < off
  · rw [List.getElem?_append_left (by omega), List.getElem?_take, if_pos h1, if_neg (by omega)]
  · rw [List.getElem?_append_right (by omega), hl]
    by_cases h2 : i < off + src.length
    · rw [List.getElem?_append_left (by omega), if_pos (by omega)]
    · rw [List.getElem?_append_right (by omega), List.getElem?_drop, if_neg (by omega)]
      congr 1
      omega

theorem getD_copyAt (b : Bytes) (off : Nat) (src : Bytes) (i : Nat)
    (h : off + src.length ≤ b.length) :
    (copyAt b off src).getD i 0 =
      if off ≤ i ∧ i < off + src.length then src.getD (i - off) 0 else b.getD i 0 := by
  simp only [List.getD_eq_getElem?_getD, getElem?_copyAt b off src i h]
  split <;> rfl

theorem getD_slice (b : Bytes) (off n i : Nat) (hi : i < n) :
    (slice b off n).getD i 0 = b.getD (off + i) 0 := by
  simp only [slice, List.getD_eq_getElem?_getD, List.getElem?_take, List.getElem?_drop, if_pos hi]

theorem ext_getD {a b : Bytes} (hl : a.length = b.length)
    (h : ∀ i, i < a.length → a.getD i 0 = b.getD i 0) : a = b := by
  apply List.ext_getElem hl
  intro i h1 h2
  have hi := h i h1
  rwa [List.getD_eq_getElem _ _ h1, List.getD_eq_getElem _ _ h2] at hi

def ofLe : Bytes → Nat
  | [] => 0
  | x :: xs => x.toNat + 256 * ofLe xs

def toLe : Nat → Nat → Bytes
  | 0, _ => []
  | n + 1, v => UInt8.ofNat v :: toLe n (v / 256)

def ofBe (b : Bytes) : Nat := ofLe b.reverse

def toBe (n v : Nat) : Bytes := (toLe n v).reverse

@[simp] theorem length_toLe (n v : Nat) : (toLe n v).length = n := by
  induction n generalizing v with
  | zero => rfl
  | succ n ih => simp only [toLe, List.length_cons, ih]

@[simp] theorem length_toBe (n v : Nat) : (toBe n v).length = n := by
  simp [toBe]

theorem ofLe_toLe (n v : Nat) : ofLe (toLe n v) = v % 256 ^ n := by
  induction n generalizing v with
  | zero => simp [toLe, ofLe, Nat.mod_one]
  | succ n ih =>
    have hb : (UInt8.ofNat v).toNat = v % 256 := by simp
    simp only [toLe, ofLe, ih, hb]
    rw [Nat.pow_succ, Nat.mul_comm (256 ^ n), Nat.mod_mul]

theorem ofLe_toLe_of_lt (n v : Nat) (h : v < 256 ^ n) : ofLe (toLe n v) = v := by
  rw [ofLe_toLe, Nat.mod_eq_of_lt h]

theorem ofBe_toBe_of_lt (n v : Nat) (h : v < 256 ^ n) : ofBe (toBe n v) = v := by
  rw [ofBe, toBe, List.reverse_reverse, ofLe_toLe_of_lt n v h]

theorem ofLe_lt (b : Bytes) : ofLe b < 256 ^ b.length := by
  induction b with
  | nil => simp [ofLe]
  | cons x xs ih =>
    have hx := x.toNat_lt
    simp only [ofLe, List.length_cons, Nat.pow_succ]
    omega

theorem toLe_ofLe (b : Bytes) : toLe b.length (ofLe b) = b := by
  induction b with
  | nil => rfl
  | cons x xs ih =>
    have hx := x.toNat_lt
    have hlow : UInt8.ofNat (x.toNat + 256 * ofLe xs) = x := by
      apply UInt8.toNat_inj.mp
      simp only [UInt8.toNat_ofNat']
      omega
    have hhigh : (x.toNat + 256 * ofLe xs) / 256 = ofLe xs := by omega
    simp only [List.length_cons, ofLe, toLe, hlow, hhigh, ih]

theorem toBe_ofBe (b : Bytes) : toBe b.length (ofBe b) = b := by
  have h := toLe_ofLe b.reverse
  rw [List.length_reverse] at h
  rw [toBe, ofBe, h, List.reverse_reverse]

def u16be (v : UInt16) : Bytes := toBe 2 v.toNat
def u32be (v : UInt32) : Bytes := toBe 4 v.toNat
def u64be (v : UInt64) : Bytes := toBe 8 v.toNat
def u16le (v : UInt16) : Bytes := toLe 2 v.toNat
def u32le (v : UInt32) : Bytes := toLe 4 v.toNat
def u64le (v : UInt64) : Bytes := toLe 8 v.toNat

def u16beAt (b : Bytes) (off : Nat) : UInt16 := UInt16.ofNat (ofBe (slice b off 2))
def u32beAt (b : Bytes) (off : Nat) : UInt32 := UInt32.ofNat (ofBe (slice b off 4))
def u64beAt (b : Bytes) (off : Nat) : UInt64 := UInt64.ofNat (ofBe (slice b off 8))
def u16leAt (b : Bytes) (off : Nat) : UInt16 := UInt16.ofNat (ofLe (slice b off 2))
def u32leAt (b : Bytes) (off : Nat) : UInt32 := UInt32.ofNat (ofLe (slice b off 4))

@[simp] theorem length_u16be (v : UInt16) : (u16be v).length = 2 := length_toBe 2 _
@[simp] theorem length_u32be (v : UInt32) : (u32be v).length = 4 := length_toBe 4 _
@[simp] theorem length_u64be (v : UInt64) : (u64be v).length = 8 := length_toBe 8 _
@[simp] theorem length_u16le (v : UInt16) : (u16le v).length = 2 := length_toLe 2 _
@[simp] theorem length_u32le (v : UInt32) : (u32le v).length = 4 := length_toLe 4 _

theorem u16beAt_of_slice (b : Bytes) (off : Nat) (v : UInt16) (h : slice b off 2 = u16be v) :
    u16beAt b off = v := by
  rw [u16beAt, h, u16be, ofBe_toBe_of_lt 2 _ v.toNat_lt]
  exact UInt16.ofNat_toNat

theorem u32beAt_of_slice (b : Bytes) (off : Nat) (v : UInt32) (h : slice b off 4 = u32be v) :
    u32beAt b off = v := by
  rw [u32beAt, h, u32be, ofBe_toBe_of_lt 4 _ v.toNat_lt]
  exact UInt32.ofNat_toNat

theorem u64beAt_of_slice (b : Bytes) (off : Nat) (v : UInt64) (h : slice b off 8 = u64be v) :
    u64beAt b off = v := by
  rw [u64beAt, h, u64be, ofBe_toBe_of_lt 8 _ v.toNat_lt]
  exact UInt64.ofNat_toNat

theorem u32leAt_of_slice (b : Bytes) (off : Nat) (v : UInt32) (h : slice b off 4 = u32le v) :
    u32leAt b off = v := by
  rw [u32leAt, h, u32le, ofLe_toLe_of_lt 4 _ v.toNat_lt]
  exact UInt32.ofNat_toNat

theorem u16leAt_of_slice (b : Bytes) (off : Nat) (v : UInt16) (h : slice b off 2 = u16le v) :
    u16leAt b off = v := by
  rw [u16leAt, h, u16le, ofLe_toLe_of_lt 2 _ v.toNat_lt]
  exact UInt16.ofNat_toNat

theorem u16le_u16leAt {b : Bytes} {off : Nat} (h : off + 2 ≤ b.length) : u16le (u16leAt b off) =
    slice b off 2 := by
  have hlen := length_slice_of_le b off 2 h
  have hlt := ofLe_lt (slice b off 2)
  have hval := toLe_ofLe (slice b off 2)
  rw [hlen] at hlt hval
  rw [u16le, u16leAt, UInt16.toNat_ofNat', Nat.mod_eq_of_lt (by omega), hval]

theorem u32le_u32leAt {b : Bytes} {off : Nat} (h : off + 4 ≤ b.length) : u32le (u32leAt b off) =
    slice b off 4 := by
  have hlen := length_slice_of_le b off 4 h
  have hlt := ofLe_lt (slice b off 4)
  have hval := toLe_ofLe (slice b off 4)
  rw [hlen] at hlt hval
  rw [u32le, u32leAt, UInt32.toNat_ofNat', Nat.mod_eq_of_lt (by omega), hval]

def AgreeOn (a b : Bytes) (lo hi : Nat) : Prop :=
  ∀ o n, lo ≤ o → o + n ≤ hi → slice a o n = slice b o n

theorem AgreeOn.refl (a : Bytes) (lo hi : Nat) : AgreeOn a a lo hi := fun _ _ _ _ => rfl

theorem AgreeOn.trans {a b c : Bytes} {lo hi : Nat} (h : AgreeOn a b lo hi)
    (h' : AgreeOn b c lo hi) : AgreeOn a c lo hi :=
  fun o n h1 h2 => (h o n h1 h2).trans (h' o n h1 h2)

theorem AgreeOn.mono {a b : Bytes} {lo hi lo' hi' : Nat} (h : AgreeOn a b lo hi)
    (h1 : lo ≤ lo') (h2 : hi' ≤ hi) : AgreeOn a b lo' hi' :=
  fun o n ho hn => h o n (Nat.le_trans h1 ho) (Nat.le_trans hn h2)

theorem agreeOn_copyAt (b : Bytes) (off : Nat) (src : Bytes) (lo hi : Nat) (hoff : off ≤ b.length)
    (h : hi ≤ off ∨ off + src.length ≤ lo) : AgreeOn (copyAt b off src) b lo hi := by
  intro o n h1 h2
  apply slice_copyAt_disjoint b off src o n hoff
  omega

section Reads

variable {a b : Bytes} {lo hi : Nat}

theorem AgreeOn.u16beAt (h : AgreeOn a b lo hi) (o : Nat) (h1 : lo ≤ o) (h2 : o + 2 ≤ hi) :
    u16beAt a o = u16beAt b o := by
  rw [Lib.u16beAt, Lib.u16beAt, h o 2 h1 h2]

theorem AgreeOn.u32beAt (h : AgreeOn a b lo hi) (o : Nat) (h1 : lo ≤ o) (h2 : o + 4 ≤ hi) :
    u32beAt a o = u32beAt b o := by
  rw [Lib.u32beAt, Lib.u32beAt, h o 4 h1 h2]

theorem AgreeOn.u64beAt (h : AgreeOn a b lo hi) (o : Nat) (h1 : lo ≤ o) (h2 : o + 8 ≤ hi) :
    u64beAt a o = u64beAt b o := by
  rw [Lib.u64beAt, Lib.u64beAt, h o 8 h1 h2]

theorem AgreeOn.u16leAt (h : AgreeOn a b lo hi) (o : Nat) (h1 : lo ≤ o) (h2 : o + 2 ≤ hi) :
    u16leAt a o = u16leAt b o := by
  rw [Lib.u16leAt, Lib.u16leAt, h o 2 h1 h2]

theorem AgreeOn.u32leAt (h : AgreeOn a b lo hi) (o : Nat) (h1 : lo ≤ o) (h2 : o + 4 ≤ hi) :
    u32leAt a o = u32leAt b o := by
  rw [Lib.u32leAt, Lib.u32leAt, h o 4 h1 h2]

end Reads

theorem u16beAt_copyAt (b : Bytes) (off : Nat) (v : UInt16) (h : off + 2 ≤ b.length) :
    u16beAt (copyAt b off (u16be v)) off = v := by
  apply u16beAt_of_slice
  have hs := slice_copyAt_self b off (u16be v) (by rw [length_u16be]; exact h)
  rwa [length_u16be] at hs

theorem u16leAt_copyAt (b : Bytes) (off : Nat) (v : UInt16) (h : off + 2 ≤ b.length) :
    u16leAt (copyAt b off (u16le v)) off = v := by
  apply u16leAt_of_slice
  have hs := slice_copyAt_self b off (u16le v) (by rw [length_u16le]; exact h)
  rwa [length_u16le] at hs

theorem u32leAt_copyAt (b : Bytes) (off : Nat) (v : UInt32) (h : off + 4 ≤ b.length) :
    u32leAt (copyAt b off (u32le v)) off = v := by
  apply u32leAt_of_slice
  have hs := slice_copyAt_self b off (u32le v) (by rw [length_u32le]; exact h)
  rwa [length_u32le] at hs

theorem u32beAt_copyAt (b : Bytes) (off : Nat) (v : UInt32) (h : off + 4 ≤ b.length) :
    u32beAt (copyAt b off (u32be v)) off = v := by
  apply u32beAt_of_slice
  have hs := slice_copyAt_self b off (u32be v) (by rw [length_u32be]; exact h)
  rwa [length_u32be] at hs

theorem u64beAt_copyAt (b : Bytes) (off : Nat) (v : UInt64) (h : off + 8 ≤ b.length) :
    u64beAt (copyAt b off (u64be v)) off = v := by
  apply u64beAt_of_slice
  have hs := slice_copyAt_self b off (u64be v) (by rw [length_u64be]; exact h)
  rwa [length_u64be] at hs

theorem copyAt_copyAt (b : Bytes) (off : Nat) (src src' : Bytes) (hlen : src.length = src'.length)
    (hfit : off + src.length ≤ b.length) : copyAt (copyAt b off src) off src' =
      copyAt b off src' := by
  have hsame := length_copyAt b off src hfit
  refine ext_getD ?_ ?_
  · rw [length_copyAt _ _ _ (by omega), hsame, length_copyAt _ _ _ (by omega)]
  · intro i _
    rw [getD_copyAt _ _ _ _ (by omega), getD_copyAt _ _ _ _ (by omega),
      getD_copyAt _ _ _ _ (by omega)]
    split
    · rfl
    · rw [if_neg (by omega)]

theorem copyAt_comm (b : Bytes) (off off' : Nat) (src src' : Bytes)
    (hfit : off + src.length ≤ b.length)
    (hfit' : off' + src'.length ≤ b.length) (h : off + src.length ≤ off' ∨
    off' + src'.length ≤ off) :
    copyAt (copyAt b off src) off' src' = copyAt (copyAt b off' src') off src := by
  have hsame := length_copyAt b off src hfit
  have hsame' := length_copyAt b off' src' hfit'
  refine ext_getD ?_ ?_
  · rw [length_copyAt _ _ _ (by omega), hsame, length_copyAt _ _ _ (by omega), hsame']
  · intro i _
    rw [getD_copyAt _ _ _ _ (by omega), getD_copyAt _ _ _ _ (by omega),
      getD_copyAt _ _ _ _ (by omega), getD_copyAt _ _ _ _ (by omega)]
    split
    · rw [if_neg (by omega)]
    · rfl

def copyAll (b : Bytes) (patches : List (Nat × Bytes)) : Bytes :=
  patches.foldl (fun b p => copyAt b p.1 p.2) b

@[simp] theorem copyAll_cons (b : Bytes) (p : Nat × Bytes) (ps : List (Nat × Bytes)) :
    copyAll b (p :: ps) = copyAll (copyAt b p.1 p.2) ps := rfl

theorem copyAll_append (b : Bytes) (ps qs : List (Nat × Bytes)) :
    copyAll b (ps ++ qs) = copyAll (copyAll b ps) qs := List.foldl_append

theorem length_copyAll (b : Bytes) (patches : List (Nat × Bytes))
    (h : ∀ p ∈ patches, p.1 + p.2.length ≤ b.length) : (copyAll b patches).length = b.length := by
  induction patches generalizing b with
  | nil => rfl
  | cons p ps ih =>
    have hp := length_copyAt b p.1 p.2 (h p List.mem_cons_self)
    rw [copyAll_cons, ih, hp]
    intro q hq
    rw [hp]
    exact h q (List.mem_cons_of_mem _ hq)

theorem agreeOn_copyAll (b : Bytes) (patches : List (Nat × Bytes)) (lo hi : Nat)
    (h : ∀ p ∈ patches, p.1 + p.2.length ≤ b.length)
    (hd : ∀ p ∈ patches, hi ≤ p.1 ∨ p.1 + p.2.length ≤ lo) :
    AgreeOn (copyAll b patches) b lo hi := by
  induction patches generalizing b with
  | nil => exact AgreeOn.refl _ _ _
  | cons p ps ih =>
    have hfit := h p List.mem_cons_self
    have hp := length_copyAt b p.1 p.2 hfit
    rw [copyAll_cons]
    refine (ih _ ?_ ?_).trans (agreeOn_copyAt b p.1 p.2 lo hi (by omega) (hd p List.mem_cons_self))
    · intro q hq
      rw [hp]
      exact h q (List.mem_cons_of_mem _ hq)
    · exact fun q hq => hd q (List.mem_cons_of_mem _ hq)

theorem slice_copyAt_inside {b src : Bytes} {off o n : Nat} (hlow : o ≤ off)
    (hhigh : off + src.length ≤ o + n)
    (hfit : o + n ≤ b.length) : slice (copyAt b off src) o n = copyAt (slice b o n)
      (off - o) src := by
  have hsame := length_copyAt b off src (by omega)
  have hlen := length_slice_of_le b o n hfit
  have hlen' := length_slice_of_le (copyAt b off src) o n (by omega)
  refine ext_getD ?_ fun i hi => ?_
  · rw [hlen', length_copyAt _ _ _ (by omega), hlen]
  · rw [hlen'] at hi
    rw [getD_slice _ _ _ _ hi, getD_copyAt _ _ _ _ (by omega), getD_copyAt _ _ _ _ (by omega),
      getD_slice _ _ _ _ hi]
    by_cases hin : off ≤ o + i ∧ o + i < off + src.length
    · rw [if_pos hin, if_pos (by omega)]
      congr 1
      omega
    · rw [if_neg hin, if_neg (by omega)]

theorem slice_copyAll_inside {b : Bytes} {patches : List (Nat × Bytes)} {o n : Nat}
    (h : ∀ p ∈ patches, o ≤ p.1 ∧ p.1 + p.2.length ≤ o + n) (hfit : o + n ≤ b.length) :
    slice (copyAll b patches) o n = copyAll (slice b o n)
      (patches.map (fun p => (p.1 - o, p.2))) := by
  induction patches generalizing b with
  | nil => rfl
  | cons p ps ih =>
    obtain ⟨hlow, hhigh⟩ := h p List.mem_cons_self
    have hsame := length_copyAt b p.1 p.2 (by omega)
    rw [copyAll_cons, List.map_cons, copyAll_cons, ← slice_copyAt_inside hlow hhigh hfit]
    exact ih (fun q hq => h q (List.mem_cons_of_mem _ hq)) (by rw [hsame]; exact hfit)

section Patched

variable (b : Bytes) (patches pre post : List (Nat × Bytes)) (off : Nat)

theorem u32beAt_copyAll (v : UInt32) (h : ∀ p ∈ patches, p.1 + p.2.length ≤ b.length)
    (hsplit : patches = pre ++ (off, u32be v) :: post)
    (hd : ∀ p ∈ post, off + 4 ≤ p.1 ∨ p.1 + p.2.length ≤ off) :
    u32beAt (copyAll b patches) off = v := by
  subst hsplit
  have hpre := length_copyAll b pre (fun p hp => h p (List.mem_append_left _ hp))
  have hself := h (off, u32be v) (by simp)
  rw [length_u32be] at hself
  have hlen := length_copyAt (copyAll b pre) off (u32be v) (by rw [hpre, length_u32be]; exact hself)
  rw [copyAll_append, copyAll_cons]
  have ha := agreeOn_copyAll (copyAt (copyAll b pre) off (u32be v)) post off (off + 4)
    (fun p hp => by rw [hlen, hpre]; exact h p (by simp [hp])) hd
  rw [ha.u32beAt off (Nat.le_refl _) (Nat.le_refl _), u32beAt_copyAt _ _ _ (by omega)]

theorem u16beAt_copyAll (v : UInt16) (h : ∀ p ∈ patches, p.1 + p.2.length ≤ b.length)
    (hsplit : patches = pre ++ (off, u16be v) :: post)
    (hd : ∀ p ∈ post, off + 2 ≤ p.1 ∨ p.1 + p.2.length ≤ off) :
    u16beAt (copyAll b patches) off = v := by
  subst hsplit
  have hpre := length_copyAll b pre (fun p hp => h p (List.mem_append_left _ hp))
  have hself := h (off, u16be v) (by simp)
  rw [length_u16be] at hself
  have hlen := length_copyAt (copyAll b pre) off (u16be v) (by rw [hpre, length_u16be]; exact hself)
  rw [copyAll_append, copyAll_cons]
  have ha := agreeOn_copyAll (copyAt (copyAll b pre) off (u16be v)) post off (off + 2)
    (fun p hp => by rw [hlen, hpre]; exact h p (by simp [hp])) hd
  rw [ha.u16beAt off (Nat.le_refl _) (Nat.le_refl _), u16beAt_copyAt _ _ _ (by omega)]

theorem u32leAt_copyAll (v : UInt32) (h : ∀ p ∈ patches, p.1 + p.2.length ≤ b.length)
    (hsplit : patches = pre ++ (off, u32le v) :: post)
    (hd : ∀ p ∈ post, off + 4 ≤ p.1 ∨ p.1 + p.2.length ≤ off) :
    u32leAt (copyAll b patches) off = v := by
  subst hsplit
  have hpre := length_copyAll b pre (fun p hp => h p (List.mem_append_left _ hp))
  have hself := h (off, u32le v) (by simp)
  rw [length_u32le] at hself
  have hlen := length_copyAt (copyAll b pre) off (u32le v) (by rw [hpre, length_u32le]; exact hself)
  rw [copyAll_append, copyAll_cons]
  have ha := agreeOn_copyAll (copyAt (copyAll b pre) off (u32le v)) post off (off + 4)
    (fun p hp => by rw [hlen, hpre]; exact h p (by simp [hp])) hd
  rw [ha.u32leAt off (Nat.le_refl _) (Nat.le_refl _), u32leAt_copyAt _ _ _ (by omega)]

end Patched

theorem getD_copyAll_outside (b : Bytes) (patches : List (Nat × Bytes)) (i : Nat)
    (hfit : ∀ p ∈ patches, p.1 + p.2.length ≤ b.length)
    (hout : ∀ p ∈ patches, i < p.1 ∨ p.1 + p.2.length ≤ i) : (copyAll b patches).getD i 0 =
      b.getD i 0 := by
  have hagree := agreeOn_copyAll b patches i (i + 1) hfit (by
    intro p hp
    have := hout p hp
    omega)
  exact getD_eq_of_slice_eq _ _ i 1 i (hagree i 1 (Nat.le_refl _) (Nat.le_refl _))
    (Nat.le_refl _) (by omega)

end FsExt4.Lib
