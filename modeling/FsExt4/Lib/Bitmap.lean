import FsExt4.Lib.Bytes
import Mathlib.Data.Nat.Bitwise

namespace FsExt4.Lib

def bitMask (i : Nat) : UInt8 := 1 <<< UInt8.ofNat (i % 8)

/-- Bit `i` of a byte string, least significant first in each byte; clear past the end. -/
def bit (b : Bytes) (i : Nat) : Bool := b.getD (i / 8) 0 &&& bitMask i != 0

def setBit (b : Bytes) (i : Nat) : Bytes := b.modify (i / 8) (· ||| bitMask i)

def clearBit (b : Bytes) (i : Nat) : Bytes := b.modify (i / 8) (· &&& ~~~(bitMask i))

def setBits (b : Bytes) (start n : Nat) : Bytes :=
  (List.range n).foldl (fun b i => setBit b (start + i)) b

def clearBits (b : Bytes) (start n : Nat) : Bytes :=
  (List.range n).foldl (fun b i => clearBit b (start + i)) b

theorem toNat_bitMask (i : Nat) : (bitMask i).toNat = 2 ^ (i % 8) := by
  have hlt : i % 8 < 8 := Nat.mod_lt _ (by decide)
  have hpow : 2 ^ (i % 8) < 2 ^ 8 := Nat.pow_lt_pow_right (by decide) hlt
  have hmod : i % 8 % 256 % 8 = i % 8 := by omega
  simp only [bitMask, UInt8.toNat_shiftLeft, UInt8.toNat_ofNat', UInt8.toNat_one,
    Nat.shiftLeft_eq, Nat.one_mul]
  rw [hmod, Nat.mod_eq_of_lt hpow]

theorem and_bitMask_ne_zero (x : UInt8) (i : Nat) :
    (x &&& bitMask i != 0) = x.toNat.testBit (i % 8) := by
  have hz : (x &&& bitMask i = 0) ↔ x.toNat.testBit (i % 8) = false := by
    rw [← UInt8.toNat_inj, UInt8.toNat_and, toNat_bitMask, Nat.and_two_pow]
    cases x.toNat.testBit (i % 8) <;> simp
  cases h : x.toNat.testBit (i % 8) with
  | false => simpa [bne_iff_ne] using hz.mpr h
  | true =>
    rw [bne_iff_ne]
    intro h0
    rw [hz.mp h0] at h
    exact Bool.noConfusion h

theorem bit_eq_testBit (b : Bytes) (i : Nat) :
    bit b i = (b.getD (i / 8) 0).toNat.testBit (i % 8) := and_bitMask_ne_zero _ _

theorem bit_of_length_le (b : Bytes) (i : Nat) (h : b.length * 8 ≤ i) : bit b i = false := by
  have hlen : b.length ≤ i / 8 := by omega
  rw [bit_eq_testBit, List.getD_eq_default _ _ hlen]
  simp

@[simp] theorem length_setBit (b : Bytes) (i : Nat) : (setBit b i).length = b.length := by
  simp [setBit]

@[simp] theorem length_clearBit (b : Bytes) (i : Nat) : (clearBit b i).length = b.length := by
  simp [clearBit]

theorem getD_modify (b : Bytes) (k : Nat) (f : UInt8 → UInt8) (i : Nat) (hk : k < b.length) :
    (b.modify k f).getD i 0 = if k = i then f (b.getD i 0) else b.getD i 0 := by
  rw [List.getD_eq_getElem?_getD, List.getElem?_modify, List.getD_eq_getElem?_getD]
  by_cases h : k = i
  · subst h
    simp [List.getElem?_eq_getElem hk]
  · simp [h]

theorem toNat_testBit_or_mask (x : UInt8) (i k : Nat) :
    (x ||| bitMask i).toNat.testBit k = (x.toNat.testBit k || decide (i % 8 = k)) := by
  rw [UInt8.toNat_or, toNat_bitMask, Nat.testBit_or, Nat.testBit_two_pow]

theorem toNat_testBit_and_not_mask (x : UInt8) (i k : Nat) (hk : k < 8) :
    (x &&& ~~~(bitMask i)).toNat.testBit k = (x.toNat.testBit k && !decide (i % 8 = k)) := by
  have hnot : (~~~(bitMask i)).toNat.testBit k = !(bitMask i).toNat.testBit k := by
    rw [UInt8.toNat_not, toNat_bitMask]
    have hlt : i % 8 < 8 := Nat.mod_lt _ (by decide)
    have hpow : 2 ^ (i % 8) < 2 ^ 8 := Nat.pow_lt_pow_right (by decide) hlt
    have h := Nat.testBit_two_pow_sub_succ hpow k
    have hsub : UInt8.size - 1 - 2 ^ (i % 8) = 2 ^ 8 - (2 ^ (i % 8) + 1) := by
      simp only [UInt8.size]
      omega
    rw [hsub, h]
    simp [hk]
  rw [UInt8.toNat_and, Nat.testBit_and, hnot, toNat_bitMask, Nat.testBit_two_pow]

theorem bit_setBit (b : Bytes) (i j : Nat) :
    bit (setBit b i) j = (bit b j || decide (i = j ∧ i / 8 < b.length)) := by
  rw [bit_eq_testBit, bit_eq_testBit]
  by_cases hi : i / 8 < b.length
  · rw [setBit, getD_modify b _ _ _ hi]
    by_cases hb : i / 8 = j / 8
    · rw [if_pos hb, toNat_testBit_or_mask]
      have hiff : i % 8 = j % 8 ↔ i = j ∧ i / 8 < b.length := by
        constructor
        · intro h
          exact ⟨by omega, hi⟩
        · rintro ⟨rfl, -⟩
          rfl
      simp only [hiff]
    · rw [if_neg hb]
      have hne : ¬ (i = j ∧ i / 8 < b.length) := by
        rintro ⟨rfl, -⟩
        exact hb rfl
      simp [hne]
  · have hsame : setBit b i = b := List.modify_eq_self (by omega)
    rw [hsame]
    simp [hi]

theorem bit_clearBit (b : Bytes) (i j : Nat) :
    bit (clearBit b i) j = (bit b j && !decide (i = j)) := by
  rw [bit_eq_testBit, bit_eq_testBit]
  have hj : j % 8 < 8 := Nat.mod_lt _ (by decide)
  by_cases hi : i / 8 < b.length
  · rw [clearBit, getD_modify b _ _ _ hi]
    by_cases hb : i / 8 = j / 8
    · rw [if_pos hb, toNat_testBit_and_not_mask _ _ _ hj]
      have hiff : i % 8 = j % 8 ↔ i = j := by
        constructor
        · intro h
          omega
        · rintro rfl
          rfl
      simp only [hiff]
    · rw [if_neg hb]
      have hne : i ≠ j := by
        rintro rfl
        exact hb rfl
      simp [hne]
  · have hsame : clearBit b i = b := List.modify_eq_self (by omega)
    rw [hsame]
    by_cases h : i = j
    · subst h
      rw [List.getD_eq_default _ _ (by omega)]
      simp
    · simp [h]

theorem setBits_succ (b : Bytes) (start n : Nat) :
    setBits b start (n + 1) = setBit (setBits b start n) (start + n) := by
  simp [setBits, List.range_succ]

theorem clearBits_succ (b : Bytes) (start n : Nat) :
    clearBits b start (n + 1) = clearBit (clearBits b start n) (start + n) := by
  simp [clearBits, List.range_succ]

@[simp] theorem length_setBits (b : Bytes) (start n : Nat) :
    (setBits b start n).length = b.length := by
  induction n with
  | zero => rfl
  | succ n ih => rw [setBits_succ, length_setBit, ih]

@[simp] theorem length_clearBits (b : Bytes) (start n : Nat) :
    (clearBits b start n).length = b.length := by
  induction n with
  | zero => rfl
  | succ n ih => rw [clearBits_succ, length_clearBit, ih]

theorem bit_setBits (b : Bytes) (start n j : Nat) :
    bit (setBits b start n) j =
      (bit b j || decide (start ≤ j ∧ j < start + n ∧ j / 8 < b.length)) := by
  induction n with
  | zero =>
    have h : ¬ (start ≤ j ∧ j < start + 0 ∧ j / 8 < b.length) := by omega
    rw [decide_eq_false h, Bool.or_false]
    rfl
  | succ n ih =>
    rw [setBits_succ, bit_setBit, ih, length_setBits, Bool.or_assoc]
    congr 1
    rw [← Bool.decide_or]
    apply decide_eq_decide.mpr
    constructor
    · rintro (h | ⟨rfl, h⟩)
      · omega
      · exact ⟨by omega, by omega, h⟩
    · intro h
      by_cases hj : start + n = j
      · subst hj
        exact Or.inr ⟨rfl, h.2.2⟩
      · exact Or.inl (by omega)

theorem bit_clearBits (b : Bytes) (start n j : Nat) :
    bit (clearBits b start n) j = (bit b j && !decide (start ≤ j ∧ j < start + n)) := by
  induction n with
  | zero =>
    have h : ¬ (start ≤ j ∧ j < start + 0) := by omega
    rw [decide_eq_false h, Bool.not_false, Bool.and_true]
    rfl
  | succ n ih =>
    rw [clearBits_succ, bit_clearBit, ih, Bool.and_assoc]
    congr 1
    rw [← Bool.not_or, ← Bool.decide_or]
    congr 1
    apply decide_eq_decide.mpr
    omega

theorem bit_replicate_zero (n i : Nat) : bit (List.replicate n 0) i = false := by
  rw [bit_eq_testBit, List.getD_eq_getElem?_getD, List.getElem?_replicate]
  split <;> simp

def FirstClear (b : Bytes) (lo hi : Nat) : Option Nat → Prop
  | none => ∀ i, lo ≤ i → i < hi → bit b i = true
  | some i => lo ≤ i ∧ i < hi ∧ bit b i = false ∧ ∀ j, lo ≤ j → j < i → bit b j = true

theorem FirstClear.of_set {b : Bytes} {lo mid hi : Nat} {r : Option Nat}
    (hset : ∀ i, lo ≤ i → i < mid → bit b i = true) (hmid : lo ≤ mid)
    (h : FirstClear b mid hi r) : FirstClear b lo hi r := by
  cases r with
  | none =>
    intro i h1 h2
    by_cases hi : i < mid
    · exact hset i h1 hi
    · exact h i (by omega) h2
  | some i =>
    obtain ⟨h1, h2, h3, h4⟩ := h
    refine ⟨by omega, h2, h3, ?_⟩
    intro j hj1 hj2
    by_cases hj : j < mid
    · exact hset j hj1 hj
    · exact h4 j (by omega) hj2

theorem firstClear_here (b : Bytes) (lo hi : Nat) (h : lo < hi) (hb : bit b lo = false) :
    FirstClear b lo hi (some lo) := by
  refine ⟨Nat.le_refl lo, h, hb, ?_⟩
  intro j h1 h2
  omega

theorem testBit_ofLe (b : Bytes) (j : Nat) : (ofLe b).testBit j = bit b j := by
  induction b generalizing j with
  | nil =>
    rw [bit_of_length_le [] j (by simp)]
    simp [ofLe]
  | cons x xs ih =>
    have hx : x.toNat < 2 ^ 8 := x.toNat_lt
    have hform : ofLe (x :: xs) = 2 ^ 8 * ofLe xs + x.toNat := by
      simp only [ofLe]
      omega
    rw [hform, Nat.testBit_two_pow_mul_add _ hx]
    split
    · rename_i hj
      have h0 : j / 8 = 0 := by omega
      have hm : j % 8 = j := by omega
      rw [bit_eq_testBit, h0, hm]
      rfl
    · rename_i hj
      have hd : j / 8 = (j - 8) / 8 + 1 := by omega
      have hm : j % 8 = (j - 8) % 8 := by omega
      rw [ih, bit_eq_testBit, bit_eq_testBit, hd, hm]
      rfl

theorem bit_slice (b : Bytes) (k n j : Nat) (hj : j < n * 8) :
    bit (slice b k n) j = bit b (k * 8 + j) := by
  have hd : (k * 8 + j) / 8 = k + j / 8 := by omega
  have hm : (k * 8 + j) % 8 = j % 8 := by omega
  rw [bit_eq_testBit, bit_eq_testBit, getD_slice _ _ _ _ (by omega), hd, hm]

theorem ofLe_eq_max (b : Bytes) (h : ∀ j, j < b.length * 8 → bit b j = true) :
    ofLe b = 2 ^ (b.length * 8) - 1 := by
  apply Nat.eq_of_testBit_eq
  intro j
  rw [Nat.testBit_two_pow_sub_one, testBit_ofLe]
  by_cases hj : j < b.length * 8
  · rw [h j hj, decide_eq_true hj]
  · rw [bit_of_length_le b j (by omega), decide_eq_false hj]

theorem bit_of_ofLe_eq_max (b : Bytes) (h : ofLe b = 2 ^ (b.length * 8) - 1) (j : Nat)
    (hj : j < b.length * 8) : bit b j = true := by
  rw [← testBit_ofLe, h, Nat.testBit_two_pow_sub_one, decide_eq_true hj]

theorem and_not_eq_self {f g : UInt16} (h : f &&& g = 0) : f &&& ~~~g = f := by
  have hsplit : f = (f &&& g) ||| (f &&& ~~~g) := by
    rw [← UInt16.toBitVec_inj]
    simp only [UInt16.toBitVec_or, UInt16.toBitVec_and, UInt16.toBitVec_not]
    ext i
    simp only [BitVec.getElem_or, BitVec.getElem_and, BitVec.getElem_not]
    grind
  rw [h, UInt16.zero_or] at hsplit
  exact hsplit.symm

theorem and_not_and_self (f g : UInt16) : f &&& ~~~g &&& g = 0 := by
  rw [← UInt16.toBitVec_inj]
  simp only [UInt16.toBitVec_and, UInt16.toBitVec_not]
  ext i
  simp

theorem and_not_and_of_disjoint (f : UInt16) {g k : UInt16} (h : g &&& k = 0) :
    f &&& ~~~g &&& k = f &&& k := by
  have hk : k &&& ~~~g = k := and_not_eq_self (by rw [UInt16.and_comm]; exact h)
  rw [UInt16.and_assoc, UInt16.and_comm (~~~g), hk]

theorem or_and_self (f g : UInt32) : (f ||| g) &&& g = g := by
  rw [← UInt32.toBitVec_inj]
  simp only [UInt32.toBitVec_or, UInt32.toBitVec_and]
  ext i
  simp only [BitVec.getElem_or, BitVec.getElem_and]
  grind

theorem and_not_and_self_word (f g : UInt32) : f &&& ~~~g &&& g = 0 := by
  rw [← UInt32.toBitVec_inj]
  simp only [UInt32.toBitVec_and, UInt32.toBitVec_not]
  ext i
  simp

theorem or_and_of_disjoint (f : UInt32) {g k : UInt32} (h : g &&& k = 0) : (f ||| g) &&& k =
    f &&& k := by
  have hsplit : (f ||| g) &&& k = f &&& k ||| g &&& k := by
    rw [← UInt32.toBitVec_inj]
    simp only [UInt32.toBitVec_or, UInt32.toBitVec_and]
    ext i
    simp only [BitVec.getElem_or, BitVec.getElem_and]
    grind
  rw [hsplit, h, UInt32.or_zero]

end FsExt4.Lib
