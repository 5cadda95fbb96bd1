import Mathlib.Algebra.Group.Nat.Defs
import Mathlib.Data.Nat.Basic

namespace FsExt4.Lib.PointerTree

variable {ε : Type} (node : Nat → Except ε (Nat → Nat)) (p : Nat)

/-- What offset `o` leads to, from the block `b` that is `h` levels up. -/
def walk : Nat → Nat → Nat → Except ε (Option Nat)
  | 0, _, b => .ok (if b = 0 then none else some b)
  | h + 1, o, b =>
    if b = 0 then .ok none
    else (node b).bind fun ptr => walk h (o % p ^ h) (ptr (o / p ^ h))

def trail : Nat → Nat → Nat → Except ε (List Nat)
  | 0, _, _ => .ok []
  | h + 1, o, b =>
    if b = 0 then .ok []
    else (node b).bind fun ptr => (trail h (o % p ^ h) (ptr (o / p ^ h))).map (b :: ·)

variable {node p}

theorem walk_hole (h o : Nat) : walk node p h o 0 = .ok none := by
  cases h <;> rfl

theorem trail_hole (h o : Nat) : trail node p h o 0 = .ok [] := by
  cases h <;> rfl

section Succ

variable {b : Nat} {ptr : Nat → Nat} (hb : b ≠ 0) (hnode : node b = .ok ptr)

include hb hnode

theorem walk_succ (h o : Nat) : walk node p (h + 1) o b = walk node p h (o % p ^ h)
    (ptr (o / p ^ h)) := by
  rw [walk, if_neg hb, hnode]
  rfl

theorem trail_succ (h o : Nat) :
    trail node p (h + 1) o b = (trail node p h (o % p ^ h) (ptr (o / p ^ h))).map (b :: ·) := by
  rw [trail, if_neg hb, hnode]
  rfl

theorem trail_eq_ok_iff (h o : Nat) (t : List Nat) : trail node p (h + 1) o b = .ok t ↔
    ∃ t', trail node p h (o % p ^ h) (ptr (o / p ^ h)) = .ok t' ∧ t = b :: t' := by
  rw [trail_succ hb hnode]
  cases trail node p h (o % p ^ h) (ptr (o / p ^ h)) with
  | error e => exact ⟨fun heq => (nomatch heq), fun ⟨_, heq, _⟩ => (nomatch heq)⟩
  | ok t' =>
    refine ⟨fun heq => ⟨t', rfl, (Except.ok.inj heq).symm⟩, ?_⟩
    rintro ⟨t'', heq, rfl⟩
    rw [← Except.ok.inj heq]
    rfl

theorem walk_child {h j o : Nat} (ho : o < p ^ h) :
    walk node p (h + 1) (j * p ^ h + o) b = walk node p h o (ptr j) := by
  have hp : 0 < p ^ h := Nat.zero_lt_of_lt ho
  rw [walk_succ hb hnode, Nat.mul_comm, Nat.mul_add_mod, Nat.mod_eq_of_lt ho, Nat.mul_add_div hp,
    Nat.div_eq_of_lt ho]
  rfl

end Succ

theorem trail_ok_iff (h o b : Nat) : (∃ t, trail node p h o b = .ok t) ↔ ∃ r,
    walk node p h o b = .ok r := by
  induction h generalizing o b with
  | zero => exact ⟨fun _ => ⟨_, rfl⟩, fun _ => ⟨_, rfl⟩⟩
  | succ h ih =>
    rw [trail, walk]
    by_cases hb : b = 0
    · rw [if_pos hb, if_pos hb]
      exact ⟨fun _ => ⟨_, rfl⟩, fun _ => ⟨_, rfl⟩⟩
    · rw [if_neg hb, if_neg hb]
      cases node b with
      | error e =>
        constructor <;>
        · rintro ⟨_, h⟩
          cases h
      | ok ptr =>
        refine Iff.trans ?_ (ih (o % p ^ h) (ptr (o / p ^ h)))
        change (∃ t, (trail node p h (o % p ^ h) (ptr (o / p ^ h))).map (b :: ·) = .ok t) ↔ _
        cases trail node p h (o % p ^ h) (ptr (o / p ^ h)) with
        | error e =>
          constructor <;>
          · rintro ⟨_, h⟩
            cases h
        | ok t => exact ⟨fun _ => ⟨_, rfl⟩, fun _ => ⟨_, rfl⟩⟩

theorem exists_lt_add_iff {m n : Nat} {q : Nat → Prop} :
    ((∃ o, o < m ∧ q o) ∨ ∃ o, o < n ∧ q (m + o)) ↔ ∃ o, o < m + n ∧ q o := by
  constructor
  · rintro (⟨o, ho, hq⟩ | ⟨o, ho, hq⟩)
    · exact ⟨o, by omega, hq⟩
    · exact ⟨m + o, by omega, hq⟩
  · rintro ⟨o, ho, hq⟩
    obtain hlt | hge := Nat.lt_or_ge o m
    · exact .inl ⟨o, hlt, hq⟩
    · exact .inr ⟨o - m, by omega, by rwa [Nat.add_sub_cancel' hge]⟩

end FsExt4.Lib.PointerTree
