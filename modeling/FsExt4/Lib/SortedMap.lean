import Mathlib.Data.List.Basic
import Mathlib.Data.List.Pairwise
import Mathlib.Data.List.Lookmap
import Mathlib.Order.Basic

namespace FsExt4.Lib

variable {α : Type}

/-- Insertion into a list sorted by key, replacing the entry of an equal key. -/
def insertSorted (k : Nat) (v : α) : List (Nat × α) → List (Nat × α)
  | [] => [(k, v)]
  | e :: rest =>
    if k < e.1 then (k, v) :: e :: rest
    else if k = e.1 then (k, v) :: rest
    else e :: insertSorted k v rest

theorem mem_insertSorted {k : Nat} {v : α} {e : Nat × α} {l : List (Nat × α)}
    (h : e ∈ insertSorted k v l) : e = (k, v) ∨ e ∈ l := by
  induction l with
  | nil => exact Or.inl (List.mem_singleton.mp h)
  | cons x rest ih =>
    rw [insertSorted] at h
    split at h
    · exact List.mem_cons.mp h
    · split at h
      · obtain h | h := List.mem_cons.mp h
        · exact Or.inl h
        · exact Or.inr (List.mem_cons_of_mem _ h)
      · obtain h | h := List.mem_cons.mp h
        · exact Or.inr (by rw [h]; exact List.mem_cons_self)
        · obtain h | h := ih h
          · exact Or.inl h
          · exact Or.inr (List.mem_cons_of_mem _ h)

theorem pairwise_insertSorted (k : Nat) (v : α) (l : List (Nat × α))
    (h : l.Pairwise (fun a b => a.1 < b.1)) :
    (insertSorted k v l).Pairwise (fun a b => a.1 < b.1) := by
  induction l with
  | nil => exact List.pairwise_singleton _ _
  | cons x rest ih =>
    obtain ⟨hx, hrest⟩ := List.pairwise_cons.mp h
    rw [insertSorted]
    split
    · rename_i hlt
      refine List.pairwise_cons.mpr ⟨?_, h⟩
      intro e he
      obtain rfl | he := List.mem_cons.mp he
      · exact hlt
      · exact Nat.lt_trans hlt (hx e he)
    · split
      · rename_i heq
        refine List.pairwise_cons.mpr ⟨?_, hrest⟩
        intro e he
        exact heq ▸ hx e he
      · rename_i hlt hne
        refine List.pairwise_cons.mpr ⟨?_, ih hrest⟩
        intro e he
        obtain rfl | he := mem_insertSorted he
        · exact Nat.lt_of_le_of_ne (Nat.le_of_not_lt hlt) (Ne.symm hne)
        · exact hx e he

/-- A map with keys in order, as a `BTreeMap` iterates. -/
structure SortedMap (α : Type) where
  entries : List (Nat × α)
  sorted : entries.Pairwise (fun a b => a.1 < b.1)

namespace SortedMap

def empty : SortedMap α := ⟨[], List.Pairwise.nil⟩

def get? (m : SortedMap α) (k : Nat) : Option α := m.entries.lookup k

def insert (m : SortedMap α) (k : Nat) (v : α) : SortedMap α :=
  ⟨insertSorted k v m.entries, pairwise_insertSorted k v m.entries m.sorted⟩

@[simp] theorem get?_empty (k : Nat) : (empty : SortedMap α).get? k = none := rfl

theorem lookup_cons_ite (e : Nat × α) (l : List (Nat × α)) (j : Nat) :
    (e :: l).lookup j = if j = e.1 then some e.2 else l.lookup j := by
  by_cases h : j = e.1
  · obtain ⟨k, v⟩ := e
    rw [if_pos h, h, List.lookup_cons_self]
  · obtain ⟨k, v⟩ := e
    rw [if_neg h, List.lookup_cons, beq_eq_false_iff_ne.mpr h]

theorem lookup_insertSorted (k : Nat) (v : α) (l : List (Nat × α)) (j : Nat) :
    (insertSorted k v l).lookup j = if j = k then some v else l.lookup j := by
  induction l with
  | nil => exact lookup_cons_ite (k, v) [] j
  | cons e rest ih =>
    rw [insertSorted]
    split
    · exact lookup_cons_ite (k, v) (e :: rest) j
    · split
      · rename_i heq
        rw [lookup_cons_ite, lookup_cons_ite, ← heq]
        split <;> rfl
      · rename_i hne
        rw [lookup_cons_ite, lookup_cons_ite, ih]
        by_cases h : j = e.1
        · rw [if_pos h, if_neg (fun hk => hne (hk.symm.trans h)), if_pos h]
        · rw [if_neg h, if_neg h]

theorem get?_insert (m : SortedMap α) (k : Nat) (v : α) (j : Nat) :
    (m.insert k v).get? j = if j = k then some v else m.get? j :=
  lookup_insertSorted k v m.entries j

theorem nodup_keys (m : SortedMap α) : (m.entries.map Prod.fst).Nodup := by
  rw [List.nodup_iff_pairwise_ne, List.pairwise_map]
  exact m.sorted.imp (fun h => Nat.ne_of_lt h)

theorem mem_entries_iff (m : SortedMap α) (k : Nat) (v : α) :
    (k, v) ∈ m.entries ↔ m.get? k = some v := by
  obtain ⟨l, hs⟩ := m
  change (k, v) ∈ l ↔ l.lookup k = some v
  induction l with
  | nil => simp
  | cons e rest ih =>
    obtain ⟨hx, hrest⟩ := List.pairwise_cons.mp hs
    rw [lookup_cons_ite, List.mem_cons]
    by_cases h : k = e.1
    · have hnot : (k, v) ∉ rest := fun hm => Nat.lt_irrefl k (by simpa [h] using hx _ hm)
      rw [if_pos h, Option.some_inj]
      constructor
      · rintro (rfl | hm)
        · rfl
        · exact absurd hm hnot
      · rintro rfl
        exact Or.inl (Prod.ext h rfl)
    · rw [if_neg h, ← ih hrest]
      constructor
      · rintro (rfl | hm)
        · exact absurd rfl h
        · exact hm
      · exact Or.inr

theorem get?_eq_none_iff (m : SortedMap α) (k : Nat) :
    m.get? k = none ↔ ∀ e ∈ m.entries, e.1 ≠ k := by
  constructor
  · intro h e he hk
    have hmem := (m.mem_entries_iff e.1 e.2).mp he
    rw [hk, h] at hmem
    cases hmem
  · intro h
    cases hg : m.get? k with
    | none => rfl
    | some v => exact absurd rfl (h (k, v) ((m.mem_entries_iff k v).mpr hg))

end SortedMap

end FsExt4.Lib
