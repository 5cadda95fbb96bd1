import Mathlib.Data.List.Basic
import Mathlib.Data.List.Perm.Basic
import Mathlib.Data.List.TakeWhile

namespace FsExt4.Lib

section Ranges

variable {α : Type} (start len : α → Nat)

def Apart (l : List α) : Prop := l.Pairwise (fun a b => start a + len a ≤ start b)

def covers (x : Nat) (a : α) : Bool := decide (start a ≤ x ∧ x < start a + len a)

def firstStart (l : List α) : Nat := (l.head?.map start).getD 0

variable {start len} {l A m B : List α} {x : Nat}

@[simp] theorem covers_iff {a : α} :
    covers start len x a = true ↔ start a ≤ x ∧ x < start a + len a := decide_eq_true_iff

theorem firstStart_le (h : Apart start len l) {a : α} (ha : a ∈ l) : firstStart start l ≤
    start a := by
  cases l with
  | nil => cases ha
  | cons b l =>
    obtain rfl | ha := List.mem_cons.mp ha
    · exact Nat.le_refl _
    · have hb := (List.pairwise_cons.mp h).1 a ha
      change start b ≤ start a
      omega

theorem firstStart_append (h : l ≠ []) (m : List α) :
    firstStart start (l ++ m) = firstStart start l := by
  cases l with
  | nil => exact absurd rfl h
  | cons a l => rfl

theorem Apart.pairwise_start (h : Apart start len l) :
    l.Pairwise (fun a b => start a ≤ start b) :=
  List.Pairwise.imp (fun hab => Nat.le_trans (Nat.le_add_right _ _) hab) h

theorem find?_middle (hA : ∀ a ∈ A, start a + len a ≤ x) (hB : ∀ b ∈ B, x < start b) :
    (A ++ m ++ B).find? (covers start len x) = m.find? (covers start len x) := by
  have hfront : A.find? (covers start len x) = none := by
    rw [List.find?_eq_none]
    intro a ha hc
    have h1 := hA a ha
    have h2 := covers_iff.mp hc
    omega
  have hback : B.find? (covers start len x) = none := by
    rw [List.find?_eq_none]
    intro b hb hc
    have h1 := hB b hb
    have h2 := covers_iff.mp hc
    omega
  rw [List.find?_append, List.find?_append, hfront, hback, Option.none_or, Option.or_none]

theorem find?_eq_some_of_apart (h : Apart start len l) {a : α} (ha : a ∈ l)
    (hc : covers start len x a = true) : l.find? (covers start len x) = some a := by
  obtain ⟨A, B, rfl⟩ := List.append_of_mem ha
  have hsplit := List.pairwise_append.mp h
  have hx := covers_iff.mp hc
  have hmid : (A ++ [a] ++ B).find? (covers start len x) = [a].find? (covers start len x) := by
    apply find?_middle
    · intro b hb
      exact Nat.le_trans (hsplit.2.2 b hb a List.mem_cons_self) hx.1
    · intro b hb
      have hb' := (List.pairwise_cons.mp hsplit.2.1).1 b hb
      omega
  rw [List.append_assoc, List.singleton_append] at hmid
  rw [hmid, List.find?_cons_of_pos hc]

theorem find?_eq_some_iff_of_apart (h : Apart start len l) (a : α) :
    l.find? (covers start len x) = some a ↔ a ∈ l ∧ covers start len x a = true :=
  ⟨fun hf => ⟨List.mem_of_find?_eq_some hf, List.find?_some hf⟩,
    fun ⟨ha, hc⟩ => find?_eq_some_of_apart h ha hc⟩

end Ranges

section Choose

variable {β : Type} (key : β → Nat)

def chosen (x : Nat) (l : List β) : Option β :=
  (l.takeWhile (fun c => decide (key c ≤ x))).getLast?.or l.head?

/-- The slots in front of the chosen one, the chosen one, and the slots behind it. -/
def around (x : Nat) (l : List β) : Option (List β × β × List β) :=
  match l.takeWhile (fun c => decide (key c ≤ x)) with
  | [] => l.head?.map (fun c => ([], c, l.tail))
  | a :: as => some ((a :: as).dropLast, (a :: as).getLast (List.cons_ne_nil a as),
      l.dropWhile (fun c => decide (key c ≤ x)))

variable {key} {x : Nat} {l : List β}

theorem chosen_eq_around : chosen key x l = (around key x l).map (fun p => p.2.1) := by
  unfold chosen around
  cases l.takeWhile (fun c => decide (key c ≤ x)) with
  | nil => cases l <;> rfl
  | cons a as =>
    rw [List.getLast?_eq_some_getLast (List.cons_ne_nil a as), Option.some_or]
    rfl

theorem around_append {A B : List β} {c : β} (h : around key x l = some (A, c, B)) :
    l = A ++ c :: B := by
  unfold around at h
  have hsplit := List.takeWhile_append_dropWhile (p := fun c => decide (key c ≤ x)) (l := l)
  cases htake : l.takeWhile (fun c => decide (key c ≤ x)) with
  | nil =>
    rw [htake] at h
    cases l with
    | nil => cases h
    | cons b l =>
      cases h
      rfl
  | cons a as =>
    rw [htake] at h
    cases h
    conv_lhs => rw [← hsplit, htake, ← List.dropLast_concat_getLast (List.cons_ne_nil a as)]
    rw [List.append_assoc, List.singleton_append]

theorem lt_of_mem_dropWhile (hkeys : l.Pairwise (fun a b => key a ≤ key b)) {b : β}
    (hb : b ∈ l.dropWhile (fun c => decide (key c ≤ x))) : x < key b := by
  induction l with
  | nil => cases hb
  | cons a l ih =>
    obtain ⟨ha, hl⟩ := List.pairwise_cons.mp hkeys
    by_cases hle : key a ≤ x
    · rw [List.dropWhile_cons_of_pos (by simpa using hle)] at hb
      exact ih hl hb
    · rw [List.dropWhile_cons_of_neg (by simpa using hle)] at hb
      obtain rfl | hb := List.mem_cons.mp hb
      · omega
      · have hab := ha b hb
        omega

theorem around_bounds (hkeys : l.Pairwise (fun a b => key a ≤ key b)) {A B : List β} {c : β}
    (h : around key x l = some (A, c, B)) : (A ≠ [] → key c ≤ x) ∧ ∀ b ∈ B, x < key b := by
  unfold around at h
  cases htake : l.takeWhile (fun c => decide (key c ≤ x)) with
  | nil =>
    rw [htake] at h
    cases l with
    | nil => cases h
    | cons b l =>
      obtain ⟨rfl, rfl, rfl⟩ : [] = A ∧ b = c ∧ l = B := by simpa using h
      have hb : x < key b := by
        by_contra hle
        rw [List.takeWhile_cons_of_pos (by simpa using hle)] at htake
        cases htake
      refine ⟨fun hne => absurd rfl hne, ?_⟩
      intro b' hb'
      exact Nat.lt_of_lt_of_le hb ((List.pairwise_cons.mp hkeys).1 b' hb')
  | cons a as =>
    rw [htake] at h
    cases h
    refine ⟨fun _ => ?_, ?_⟩
    · have hall : ∀ b ∈ a :: as, key b ≤ x := by
        intro b hb
        rw [← htake] at hb
        simpa using List.mem_takeWhile_imp hb
      exact hall _ (List.getLast_mem (List.cons_ne_nil a as))
    · intro b hb
      exact lt_of_mem_dropWhile hkeys hb

theorem around_isSome (h : l ≠ []) : ∃ A c B, around key x l = some (A, c, B) := by
  unfold around
  split
  · cases l with
    | nil => exact absurd rfl h
    | cons b l => exact ⟨[], b, l, rfl⟩
  · exact ⟨_, _, _, rfl⟩

end Choose

/-- A search tree of a given height: a leaf holds entries, a node above holds its children, each
with the address it is stored at. -/
def LevelTree (α : Type) : Nat → Type
  | 0 => List α
  | n + 1 => List (Nat × LevelTree α n)

namespace LevelTree

variable {α : Type}

def leaf (l : List α) : LevelTree α 0 := l

def node {n : Nat} (l : List (Nat × LevelTree α n)) : LevelTree α (n + 1) := l

def children {n : Nat} (t : LevelTree α (n + 1)) : List (Nat × LevelTree α n) := t

def entries : {n : Nat} → LevelTree α n → List α
  | 0, t => t
  | _ + 1, t => t.children.flatMap (fun c => c.2.entries)

def addresses : {n : Nat} → LevelTree α n → List Nat
  | 0, _ => []
  | _ + 1, t => t.children.flatMap (fun c => c.1 :: c.2.addresses)

def fill : {n : Nat} → LevelTree α n → Nat
  | 0, t => List.length t
  | _ + 1, t => t.children.length

def Filled (cap : Nat) : {n : Nat} → LevelTree α n → Prop
  | 0, _ => True
  | _ + 1, t => ∀ c ∈ t.children, (1 ≤ c.2.fill ∧ c.2.fill ≤ cap) ∧ c.2.Filled cap

variable {n cap : Nat}

theorem entries_ne_nil (t : LevelTree α n) (h : t.Filled cap) (hfill : 1 ≤ t.fill) :
    t.entries ≠ [] := by
  induction n with
  | zero =>
    intro hnil
    change 1 ≤ List.length t.entries at hfill
    rw [hnil] at hfill
    exact absurd hfill (Nat.not_succ_le_zero 0)
  | succ n ih =>
    cases t with
    | nil => exact absurd hfill (Nat.not_succ_le_zero 0)
    | cons c cs =>
      obtain ⟨⟨hc, -⟩, hbelow⟩ := h c List.mem_cons_self
      intro hnil
      exact ih c.2 hbelow hc (List.append_eq_nil_iff.mp hnil).1

theorem entries_pieces {t : LevelTree α (n + 1)} {pieces : List (List (Nat × LevelTree α n))}
    (h : pieces.flatten = t.children) : (pieces.map node).flatMap entries = t.entries := by
  change _ = t.children.flatMap _
  rw [← h, List.flatMap_map, List.flatten_eq_flatMap, List.flatMap_assoc]
  rfl

theorem addresses_pieces {t : LevelTree α (n + 1)} {pieces : List (List (Nat × LevelTree α n))}
    (h : pieces.flatten = t.children) : (pieces.map node).flatMap addresses = t.addresses := by
  change _ = t.children.flatMap _
  rw [← h, List.flatMap_map, List.flatten_eq_flatMap, List.flatMap_assoc]
  rfl

section Placed

variable {blocks : List Nat} {pieces : List (LevelTree α n)} (h : blocks.length = pieces.length)

include h

theorem entries_zip : (node (blocks.zip pieces)).entries = pieces.flatMap entries := by
  change (blocks.zip pieces).flatMap (fun c => c.2.entries) = _
  rw [← List.flatMap_map Prod.snd entries, List.map_snd_zip (by omega)]

theorem addresses_zip :
    (node (blocks.zip pieces)).addresses.Perm (blocks ++ pieces.flatMap addresses) := by
  refine (List.map_append_flatMap_perm (blocks.zip pieces) Prod.fst
    (fun c => c.2.addresses)).symm.trans ?_
  rw [← List.flatMap_map Prod.snd addresses, List.map_fst_zip (by omega),
    List.map_snd_zip (by omega)]

end Placed

section Search

variable {start len : α → Nat} {x : Nat}

def key (start : α → Nat) (t : LevelTree α n) : Nat := firstStart start t.entries

theorem entries_split {t : LevelTree α (n + 1)} {A B : List (Nat × LevelTree α n)}
    {c : Nat × LevelTree α n} (h : t.children = A ++ c :: B) :
    t.entries = A.flatMap (fun c => c.2.entries) ++ c.2.entries ++
      B.flatMap (fun c => c.2.entries) := by
  change t.children.flatMap _ = _
  rw [h, List.flatMap_append, List.flatMap_cons, List.append_assoc]

theorem addresses_split {t : LevelTree α (n + 1)} {A B : List (Nat × LevelTree α n)}
    {c : Nat × LevelTree α n} (h : t.children = A ++ c :: B) :
    t.addresses = A.flatMap (fun c => c.1 :: c.2.addresses) ++ (c.1 :: c.2.addresses) ++
      B.flatMap (fun c => c.1 :: c.2.addresses) := by
  change t.children.flatMap _ = _
  rw [h, List.flatMap_append, List.flatMap_cons, List.append_assoc]

theorem key_mem (start : α → Nat) {t : LevelTree α n} (h : t.entries ≠ []) : ∃ a ∈ t.entries,
    t.key start = start a := by
  unfold key
  cases he : t.entries with
  | nil => exact absurd he h
  | cons a l => exact ⟨a, List.mem_cons_self, rfl⟩

theorem pairwise_key {r : Nat → Nat → Prop} {t : LevelTree α (n + 1)}
    (hentries : t.entries.Pairwise (fun a b => r (start a) (start b)))
    (hne : ∀ c ∈ t.children, c.2.entries ≠ []) :
    t.children.Pairwise (fun a b => r (a.2.key start) (b.2.key start)) := by
  have hpair := (List.pairwise_flatMap.mp hentries).2
  refine List.Pairwise.imp_of_mem ?_ hpair
  intro a b ha hb hab
  obtain ⟨x, hx, hkx⟩ := key_mem start (hne a ha)
  obtain ⟨y, hy, hky⟩ := key_mem start (hne b hb)
  rw [hkx, hky]
  exact hab x hx y hy

/-- What lies in front of the chosen child ends at or before `x`, or there is nothing; what lies
behind it begins after `x`. -/
theorem around_entries {t : LevelTree α (n + 1)} (happart : Apart start len t.entries)
    (hne : ∀ c ∈ t.children, c.2.entries ≠ []) {A B : List (Nat × LevelTree α n)}
    {c : Nat × LevelTree α n}
    (h : around (fun c => c.2.key start) x t.children = some (A, c, B)) :
    (∀ a ∈ A.flatMap (fun c => c.2.entries), start a + len a ≤ x) ∧
      ∀ b ∈ B.flatMap (fun c => c.2.entries), x < start b := by
  obtain ⟨hA, hB⟩ := around_bounds (pairwise_key happart.pairwise_start hne) h
  have hsplit := around_append h
  rw [entries_split hsplit] at happart
  obtain ⟨hfront, hback, -⟩ := List.pairwise_append.mp happart
  obtain ⟨e, he, hke⟩ := key_mem start (hne c (by rw [hsplit]; simp))
  constructor
  · intro a ha
    have hlt := (List.pairwise_append.mp hfront).2.2 a ha e he
    have hle := hA (by rintro rfl; cases ha)
    omega
  · intro b hb
    obtain ⟨c', hc', hb'⟩ := List.mem_flatMap.mp hb
    have hin : Apart start len c'.2.entries := (List.pairwise_flatMap.mp hback).1 c' hc'
    exact Nat.lt_of_lt_of_le (hB c' hc') (firstStart_le hin hb')

theorem find?_around {t : LevelTree α (n + 1)} (happart : Apart start len t.entries)
    (hne : ∀ c ∈ t.children, c.2.entries ≠ []) {A B : List (Nat × LevelTree α n)}
    {c : Nat × LevelTree α n}
    (h : around (fun c => c.2.key start) x t.children = some (A, c, B)) :
    t.entries.find? (covers start len x) = c.2.entries.find? (covers start len x) := by
  obtain ⟨hA, hB⟩ := around_entries happart hne h
  rw [entries_split (around_append h)]
  exact find?_middle hA hB

/-- The leaf that `x` belongs in, between what lies in front of it and behind it. -/
def route (start : α → Nat) (x : Nat) : {n : Nat} → LevelTree α n → List α × List α × List α
  | 0, t => ([], t, [])
  | _ + 1, t =>
    match around (fun c => c.2.key start) x t.children with
    | none => ([], [], [])
    | some (A, c, B) =>
      (A.flatMap (fun c => c.2.entries) ++ (c.2.route start x).1, (c.2.route start x).2.1,
        (c.2.route start x).2.2 ++ B.flatMap (fun c => c.2.entries))

theorem route_succ {t : LevelTree α (n + 1)} {A B : List (Nat × LevelTree α n)}
    {c : Nat × LevelTree α n}
    (h : around (fun c => c.2.key start) x t.children = some (A, c, B)) :
    t.route start x = (A.flatMap (fun c => c.2.entries) ++ (c.2.route start x).1,
      (c.2.route start x).2.1, (c.2.route start x).2.2 ++ B.flatMap (fun c => c.2.entries)) := by
  rw [route, h]

theorem route_spec (t : LevelTree α n) (hfill : 0 < n → 1 ≤ t.fill) (hfilled : t.Filled cap)
    (happart : Apart start len t.entries) :
    t.entries = (t.route start x).1 ++ (t.route start x).2.1 ++ (t.route start x).2.2 ∧
      (∀ a ∈ (t.route start x).1, start a + len a ≤ x) ∧ ∀ b ∈ (t.route start x).2.2,
      x < start b := by
  induction n with
  | zero => exact ⟨(List.append_nil _).symm, nofun, nofun⟩
  | succ n ih =>
    have hne : ∀ c ∈ t.children, c.2.entries ≠ [] := fun c hc =>
      c.2.entries_ne_nil (hfilled c hc).2 (hfilled c hc).1.1
    obtain ⟨A, c, B, hc⟩ : ∃ A c B, around (fun c => c.2.key start) x t.children = some (A, c, B) :=
      around_isSome (List.length_pos_iff.mp (hfill (Nat.succ_pos n)))
    have hmem : c ∈ t.children := by rw [around_append hc]; simp
    obtain ⟨hA, hB⟩ := around_entries happart hne hc
    obtain ⟨hentries, hfront, hbehind⟩ := ih c.2 (fun _ => (hfilled c hmem).1.1) (hfilled c hmem).2
      ((List.pairwise_flatMap.mp happart).1 c hmem)
    rw [route_succ hc]
    refine ⟨?_, ?_, ?_⟩
    · rw [entries_split (around_append hc)]
      conv_lhs => rw [hentries]
      simp only [List.append_assoc]
    · intro a ha
      obtain ha | ha := List.mem_append.mp ha
      · exact hA a ha
      · exact hfront a ha
    · intro b hb
      obtain hb | hb := List.mem_append.mp hb
      · exact hbehind b hb
      · exact hB b hb

end Search

end LevelTree

end FsExt4.Lib
