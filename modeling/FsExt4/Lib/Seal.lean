import FsExt4.Lib.Bytes

namespace FsExt4.Lib

def SameOutside (field : Nat → Prop) (b b' : Bytes) : Prop :=
  b'.length = b.length ∧ ∀ i, ¬ field i → b'[i]? = b[i]?

theorem SameOutside.refl (field : Nat → Prop) (b : Bytes) : SameOutside field b b :=
    ⟨rfl, fun _ _ => rfl⟩

theorem SameOutside.trans {field : Nat → Prop} {a b c : Bytes} (h : SameOutside field a b)
    (h' : SameOutside field b c) : SameOutside field a c :=
  ⟨h'.1.trans h.1, fun i hi => (h'.2 i hi).trans (h.2 i hi)⟩

theorem SameOutside.mono {field field' : Nat → Prop} {b b' : Bytes} (h : SameOutside field b b')
    (hfield : ∀ i, field i → field' i) : SameOutside field' b b' :=
  ⟨h.1, fun i hi => h.2 i (fun hf => hi (hfield i hf))⟩

theorem sameOutside_copyAt {field : Nat → Prop} {b src : Bytes} {off : Nat}
    (hfit : off + src.length ≤ b.length) (h : ∀ i, off ≤ i → i < off + src.length → field i) :
    SameOutside field b (copyAt b off src) := by
  refine ⟨length_copyAt b off src hfit, fun i hi => ?_⟩
  rw [getElem?_copyAt b off src i hfit, if_neg (fun hin => hi (h i hin.1 hin.2))]

theorem sameOutside_copyAll {field : Nat → Prop} {b : Bytes} {patches : List (Nat × Bytes)}
    (hfit : ∀ p ∈ patches, p.1 + p.2.length ≤ b.length)
    (h : ∀ p ∈ patches, ∀ i, p.1 ≤ i → i < p.1 + p.2.length → field i) :
    SameOutside field b (copyAll b patches) := by
  induction patches generalizing b with
  | nil => exact SameOutside.refl field b
  | cons p ps ih =>
    have hfirst := sameOutside_copyAt (hfit p List.mem_cons_self) (h p List.mem_cons_self)
    rw [copyAll_cons]
    refine hfirst.trans (ih (fun q hq => ?_) (fun q hq => h q (List.mem_cons_of_mem _ hq)))
    rw [hfirst.1]
    exact hfit q (List.mem_cons_of_mem _ hq)

theorem SameOutside.slice_eq {field : Nat → Prop} {b b' : Bytes}
    (h : SameOutside field b b') {o n : Nat}
    (hout : ∀ i, o ≤ i → i < o + n → ¬ field i) : slice b' o n = slice b o n := by
  apply List.ext_getElem?
  intro i
  simp only [slice, List.getElem?_take, List.getElem?_drop]
  split
  · exact h.2 (o + i) (hout _ (Nat.le_add_right _ _) (by omega))
  · rfl

/-- A check value kept in the bytes that it is computed from, where there is room for it. -/
structure Seal (σ : Type) where
  room : Bytes → Prop
  field : Bytes → Nat → Prop
  sum : Bytes → σ
  get : Bytes → σ
  put : Bytes → σ → Bytes
  room_put : ∀ b c, room b → room (put b c)
  /-- The value is not computed from the bytes it is kept in. -/
  sum_put : ∀ b c, room b → sum (put b c) = sum b
  get_put : ∀ b, room b → get (put b (sum b)) = sum b
  put_put : ∀ b c, room b → put (put b c) c = put b c
  sameOutside_put : ∀ b c, room b → SameOutside (field b) b (put b c)

namespace Seal

variable {σ : Type} (s : Seal σ) {b : Bytes}

def patch (b : Bytes) : Bytes := s.put b (s.sum b)

def Verifies (b : Bytes) : Prop := s.get b = s.sum b

theorem verifies_patch (h : s.room b) : s.Verifies (s.patch b) := by
  rw [Verifies, patch, s.get_put b h, s.sum_put b _ h]

theorem patch_patch (h : s.room b) : s.patch (s.patch b) = s.patch b := by
  have hsum : s.sum (s.patch b) = s.sum b := s.sum_put b _ h
  rw [patch, hsum, patch, s.put_put b _ h]

theorem sameOutside_patch (h : s.room b) : SameOutside (s.field b) b (s.patch b) :=
  s.sameOutside_put b _ h

def cell (off w : Nat) (i : Nat) : Prop := off ≤ i ∧ i < off + w

def ofCell (w : Nat) (enc : σ → Bytes) (dec : Bytes → Nat → σ) (henc : ∀ c, (enc c).length = w)
    (hdec : ∀ b off c, off + w ≤ b.length → dec (copyAt b off (enc c)) off = c)
      (room : Bytes → Prop)
    (off : Bytes → Nat) (sum : Bytes → σ) (hfit : ∀ b, room b → off b + w ≤ b.length)
    (hstable : ∀ b b', room b → SameOutside (cell (off b) w) b b' →
      room b' ∧ off b' = off b ∧ sum b' = sum b) : Seal σ :=
  have hput : ∀ b c, room b → SameOutside (cell (off b) w) b (copyAt b (off b) (enc c)) := by
    intro b c hb
    refine sameOutside_copyAt (by rw [henc]; exact hfit b hb) (fun i hi hi' => ?_)
    rw [henc] at hi'
    exact ⟨hi, hi'⟩
  { room := room
    field := fun b => cell (off b) w
    sum := sum
    get := fun b => dec b (off b)
    put := fun b c => copyAt b (off b) (enc c)
    room_put := fun b c hb => (hstable b _ hb (hput b c hb)).1
    sum_put := fun b c hb => (hstable b _ hb (hput b c hb)).2.2
    get_put := by
      intro b hb
      rw [(hstable b _ hb (hput b (sum b) hb)).2.1]
      exact hdec b (off b) (sum b) (hfit b hb)
    put_put := by
      intro b c hb
      rw [(hstable b _ hb (hput b c hb)).2.1]
      exact copyAt_copyAt b (off b) (enc c) (enc c) rfl (by rw [henc]; exact hfit b hb)
    sameOutside_put := fun b c hb => hput b c hb }

end Seal

/-- A writer and a checker of one check value agree on `b`: what is written verifies, writing it
again changes nothing, and no other byte is touched. -/
structure Agree (verify : Bytes → Bool) (patch : Bytes → Bytes) (field : Nat → Prop)
    (b : Bytes) : Prop where
  verifies : verify (patch b) = true
  idempotent : patch (patch b) = patch b
  sameOutside : SameOutside field b (patch b)

theorem Seal.agree {σ : Type} (s : Seal σ) {verify : Bytes → Bool}
    {patch : Bytes → Bytes} {b : Bytes}
    (hroom : s.room b) (hpatch : ∀ b, s.room b → patch b = s.patch b)
    (hverify : ∀ b, s.room b → s.Verifies b → verify b = true) : Agree verify patch
      (s.field b) b := by
  have hput : s.room (s.patch b) := s.room_put b _ hroom
  have hb := hpatch b hroom
  constructor
  · rw [hb]
    exact hverify _ hput (s.verifies_patch hroom)
  · rw [hb, hpatch _ hput, s.patch_patch hroom]
  · rw [hb]
    exact s.sameOutside_patch hroom

theorem Seal.agree_of_enabled {σ : Type} (s : Seal σ) {verify test : Bytes → Bool}
    {patch : Bytes → Bytes}
    {enabled : Bool} {n : Nat} {b : Bytes} (hroom : ∀ b, s.room b ↔ n ≤ b.length)
    (hlen : enabled = true → n ≤ b.length)
    (hpatch : ∀ b, (!enabled ∨ b.length < n) → patch b = b)
    (hput : ∀ b, enabled = true → n ≤ b.length → patch b = s.patch b)
    (hverify : ∀ b, verify b = if !enabled then true else if b.length < n then false else test b)
    (htest : ∀ b, enabled = true → s.room b → s.Verifies b → test b = true) :
    Agree verify patch (s.field b) b := by
  cases henabled : enabled with
  | false =>
    have hoff : ∀ b, patch b = b := fun b => hpatch b (.inl (by rw [henabled]; rfl))
    constructor
    · rw [hverify, henabled]
      rfl
    · rw [hoff, hoff]
    · rw [hoff]
      exact SameOutside.refl _ b
  | true =>
    refine s.agree ((hroom b).mpr (hlen henabled)) ?_ ?_
    · intro b hb
      exact hput b henabled ((hroom b).mp hb)
    · intro b hb hstored
      rw [hverify, henabled, Bool.not_true, if_neg Bool.false_ne_true,
        if_neg (Nat.not_lt.mpr ((hroom b).mp hb))]
      exact htest b henabled hb hstored

end FsExt4.Lib
