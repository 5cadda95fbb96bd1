import Mathlib.Data.List.Basic
import Mathlib.Data.List.TakeDrop
import Mathlib.Data.List.Forall2

namespace FsExt4.Lib

variable {α : Type}

def chunksFrom (n : Nat) : Nat → List α → List (List α)
  | 0, _ => []
  | _, [] => []
  | fuel + 1, x :: xs => (x :: xs).take n :: chunksFrom n fuel ((x :: xs).drop n)

/-- `slice.chunks(n)`: consecutive pieces of `n`, the last one shorter. -/
def chunks (n : Nat) (l : List α) : List (List α) := chunksFrom n l.length l

theorem flatten_chunksFrom (n : Nat) (hn : 0 < n) (fuel : Nat) (l : List α) (h : l.length ≤ fuel) :
    (chunksFrom n fuel l).flatten = l := by
  induction fuel generalizing l with
  | zero =>
    have hl : l = [] := List.length_eq_zero_iff.mp (by omega)
    simp [hl, chunksFrom]
  | succ fuel ih =>
    cases l with
    | nil => simp [chunksFrom]
    | cons x xs =>
      have hd : ((x :: xs).drop n).length ≤ fuel := by
        simp only [List.length_drop, List.length_cons] at h ⊢
        omega
      rw [chunksFrom, List.flatten_cons, ih _ hd, List.take_append_drop]

theorem flatten_chunks (n : Nat) (hn : 0 < n) (l : List α) : (chunks n l).flatten = l :=
  flatten_chunksFrom n hn _ l (Nat.le_refl _)

theorem mem_chunksFrom (n : Nat) (hn : 0 < n) (fuel : Nat) (l c : List α)
    (hc : c ∈ chunksFrom n fuel l) : c ≠ [] ∧ c.length ≤ n := by
  induction fuel generalizing l with
  | zero => simp [chunksFrom] at hc
  | succ fuel ih =>
    cases l with
    | nil => simp [chunksFrom] at hc
    | cons x xs =>
      rw [chunksFrom, List.mem_cons] at hc
      obtain rfl | hc := hc
      · refine ⟨?_, by simp only [List.length_take]; omega⟩
        intro h
        have hl := congrArg List.length h
        simp only [List.length_take, List.length_cons, List.length_nil] at hl
        omega
      · exact ih _ hc

theorem mem_chunks (n : Nat) (hn : 0 < n) (l c : List α) (hc : c ∈ chunks n l) :
    c ≠ [] ∧ c.length ≤ n :=
  mem_chunksFrom n hn _ l c hc

theorem mapM_cons_ok {ε β : Type} (f : α → Except ε β) (a : α) (as : List α) (bs : List β)
    (h : (a :: as).mapM f = .ok bs) :
    ∃ b bs', f a = .ok b ∧ as.mapM f = .ok bs' ∧ bs = b :: bs' := by
  rw [List.mapM_cons] at h
  cases hf : f a with
  | error e =>
    rw [hf] at h
    exact absurd h (by simp [bind, Except.bind])
  | ok b =>
    cases hr : as.mapM f with
    | error e =>
      rw [hf, hr] at h
      exact absurd h (by simp [bind, Except.bind])
    | ok bs' =>
      rw [hf, hr] at h
      exact ⟨b, bs', rfl, rfl, (Except.ok.inj h).symm⟩

theorem mapM_ok {ε β : Type} (f : α → Except ε β) (as : List α) (h : ∀ a ∈ as, ∃ b, f a = .ok b) :
    ∃ bs, as.mapM f = .ok bs := by
  induction as with
  | nil => exact ⟨[], rfl⟩
  | cons a as ih =>
    obtain ⟨b, hb⟩ := h a List.mem_cons_self
    obtain ⟨bs, hbs⟩ := ih (fun a' ha' => h a' (List.mem_cons_of_mem _ ha'))
    exact ⟨b :: bs, by rw [List.mapM_cons, hb, hbs]; rfl⟩

theorem mapM_eq_ok_iff {ε β : Type} (f : α → Except ε β) (as : List α) (bs : List β) :
    as.mapM f = .ok bs ↔ List.Forall₂ (fun a b => f a = .ok b) as bs := by
  constructor
  · intro h
    induction as generalizing bs with
    | nil =>
      obtain rfl : [] = bs := Except.ok.inj h
      exact .nil
    | cons a as ih =>
      obtain ⟨b, bs', hb, hbs, rfl⟩ := mapM_cons_ok f a as bs h
      exact .cons hb (ih bs' hbs)
  · intro h
    induction h with
    | nil => rfl
    | cons hb _ ih =>
      rw [List.mapM_cons, hb, ih]
      rfl

theorem mapM_range_eq_ok_iff {ε : Type} (f : Nat → Except ε α) (n : Nat) (xs : List α) :
    (List.range n).mapM f = .ok xs ↔
      xs.length = n ∧ ∀ i (hi : i < xs.length), f i = .ok (xs.get ⟨i, hi⟩) := by
  rw [mapM_eq_ok_iff, List.forall₂_iff_get]
  constructor
  · rintro ⟨hn, h⟩
    rw [List.length_range] at hn
    refine ⟨hn.symm, fun i hi => ?_⟩
    have hf := h i (by rw [List.length_range, hn]; exact hi) hi
    simpa using hf
  · rintro ⟨hn, h⟩
    refine ⟨by rw [List.length_range, hn], fun i h1 h2 => ?_⟩
    have hf := h i h2
    simpa using hf

theorem length_chunksFrom_le (n fuel : Nat) (l : List α) (k : Nat)
    (h : l.length ≤ k * n) : (chunksFrom n fuel l).length ≤ k := by
  induction k generalizing fuel l with
  | zero =>
    have hl : l = [] := List.length_eq_zero_iff.mp (by omega)
    subst hl
    cases fuel <;> simp [chunksFrom]
  | succ k ih =>
    cases fuel with
    | zero => simp [chunksFrom]
    | succ fuel =>
      cases l with
      | nil => simp [chunksFrom]
      | cons x xs =>
        rw [chunksFrom, List.length_cons]
        apply Nat.succ_le_succ
        apply ih
        rw [Nat.succ_mul] at h
        rw [List.length_drop]
        omega

theorem length_chunks_le (n : Nat) (l : List α) (k : Nat) (h : l.length ≤ k * n) :
    (chunks n l).length ≤ k :=
  length_chunksFrom_le n _ l k h

theorem chunksFrom_map {β : Type} (f : α → β) (n fuel : Nat) (l : List α) :
    chunksFrom n fuel (l.map f) = (chunksFrom n fuel l).map (List.map f) := by
  induction fuel generalizing l with
  | zero => rfl
  | succ fuel ih =>
    cases l with
    | nil => rfl
    | cons x xs =>
      rw [List.map_cons, chunksFrom, chunksFrom, List.map_cons, ← List.map_cons, ← List.map_drop,
        ← List.map_take, ih]

theorem chunks_map {β : Type} (f : α → β) (n : Nat) (l : List α) :
    chunks n (l.map f) = (chunks n l).map (List.map f) := by
  unfold chunks
  rw [List.length_map]
  exact chunksFrom_map f n _ l

end FsExt4.Lib
