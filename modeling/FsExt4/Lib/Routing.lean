import Mathlib.Data.List.Perm.Basic
import Mathlib.Data.List.Nodup
import Mathlib.Order.Lattice
import Mathlib.Logic.Function.Basic

namespace FsExt4.Lib

section Table

variable {α β κ : Type*} [LinearOrder κ] (bound : α → κ)

/-- The last of the entries that the target has reached, the first being reached always. -/
def lastReached (target : κ) : α → List α → α
  | chosen, [] => chosen
  | chosen, e :: rest => if bound e ≤ target then lastReached target e rest else chosen

/-- The entries with a new one in front of the first whose bound is greater. -/
def insertBound (new : α) : List α → List α
  | [] => [new]
  | e :: rest => if bound new < bound e then new :: e :: rest else e :: insertBound new rest

variable {bound}

theorem lastReached_mem (target : κ) (chosen : α) (rest : List α) :
    lastReached bound target chosen rest ∈ chosen :: rest := by
  induction rest generalizing chosen with
  | nil => exact List.mem_cons_self
  | cons e rest ih =>
    rw [lastReached]
    split
    · exact List.mem_cons_of_mem _ (ih e)
    · exact List.mem_cons_self

theorem insertBound_perm (new : α) (rest : List α) : (insertBound bound new rest).Perm
    (new :: rest) := by
  induction rest with
  | nil => exact List.Perm.refl _
  | cons e rest ih =>
    rw [insertBound]
    split
    · exact List.Perm.refl _
    · exact (ih.cons e).trans (List.Perm.swap new e rest)

theorem lastReached_insertBound [DecidableEq β] {child : α → β} {chosen : α} {rest : List α}
    (hdistinct : ((chosen :: rest).map child).Nodup) (new : α) (target : κ) :
    lastReached bound target chosen (insertBound bound new rest) =
      if bound new ≤ target ∧
          child (lastReached bound target chosen rest) = child
            (lastReached bound (bound new) chosen rest)
      then new else lastReached bound target chosen rest := by
  induction rest generalizing chosen with
  | nil => simp [insertBound, lastReached]
  | cons e rest ih =>
    have hrest : ((e :: rest).map child).Nodup := (List.nodup_cons.mp hdistinct).2
    have hne : child (lastReached bound target e rest) ≠ child chosen := by
      intro heq
      apply (List.nodup_cons.mp hdistinct).1
      rw [← heq]
      exact List.mem_map_of_mem (lastReached_mem target e rest)
    rw [insertBound]
    by_cases hstop : bound new < bound e
    · have hnew : lastReached bound (bound new) chosen (e :: rest) = chosen := by
        rw [lastReached, if_neg (not_le.mpr hstop)]
      rw [if_pos hstop, hnew]
      by_cases hreach : bound e ≤ target
      · have hle : bound new ≤ target := (le_of_lt hstop).trans hreach
        simp [lastReached, hreach, hle, hne]
      · simp [lastReached, hreach]
    · have hle : bound e ≤ bound new := not_lt.mp hstop
      rw [if_neg hstop, lastReached, lastReached, lastReached, if_pos hle]
      by_cases hreach : bound e ≤ target
      · rw [if_pos hreach, if_pos hreach]
        exact ih hrest
      · rw [if_neg hreach, if_neg hreach, if_neg]
        exact fun h => hreach (hle.trans h.1)

end Table

section Buckets

variable {κ ι ε : Type*}

/-- Every key is routed to one of the buckets, and every item is in the bucket of its key. -/
structure Buckets (route : κ → ι) (key : ε → κ) (buckets : List ι) (items : ι → List ε) : Prop where
  distinct : buckets.Nodup
  routed : ∀ k, route k ∈ buckets
  placed : ∀ i ∈ buckets, ∀ e ∈ items i, route (key e) = i

namespace Buckets

variable {route route' : κ → ι} {key : ε → κ} {buckets : List ι} {items items' : ι → List ε}

theorem find?_flatMap {p : ε → Bool} {i : ι} (l : List ι) (h : ∀ j ∈ l, ∀ e ∈ items j,
    p e = true → j = i) (hi : i ∈ l) : (l.flatMap items).find? p = (items i).find? p := by
  induction l with
  | nil => exact absurd hi List.not_mem_nil
  | cons j rest ih =>
    rw [List.flatMap_cons, List.find?_append]
    by_cases hj : j = i
    · subst hj
      cases hfind : (items j).find? p with
      | some e => rfl
      | none =>
        by_cases hrest : j ∈ rest
        · rw [ih (fun k hk => h k (List.mem_cons_of_mem _ hk)) hrest, hfind]
          rfl
        · have hnone : (rest.flatMap items).find? p = none := by
            rw [List.find?_eq_none]
            intro e he hp
            obtain ⟨k, hk, hek⟩ := List.mem_flatMap.mp he
            exact hrest (h k (List.mem_cons_of_mem _ hk) e hek hp ▸ hk)
          rw [hnone]
          rfl
    · have hnone : (items j).find? p = none := by
        rw [List.find?_eq_none]
        exact fun e he hp => hj (h j List.mem_cons_self e he hp)
      rw [hnone, Option.none_or]
      exact ih (fun k hk => h k (List.mem_cons_of_mem _ hk))
        ((List.mem_cons.mp hi).resolve_left (Ne.symm hj))

theorem find (h : Buckets route key buckets items) {k : κ} {p : ε → Bool} (hp : ∀ e, p e = true →
    key e = k) : (buckets.flatMap items).find? p = (items (route k)).find? p := by
  apply find?_flatMap buckets _ (h.routed k)
  intro j hj e he hpe
  rw [← hp e hpe]
  exact (h.placed j hj e he).symm

theorem flatMap_perm_of_mem (l : List ι) {i : ι} (hi : i ∈ l) (hnodup : l.Nodup) {more : List ε}
    (hat : (items' i).Perm (more ++ items i)) (hother : ∀ j ∈ l, j ≠ i → items' j = items j) :
    (l.flatMap items').Perm (more ++ l.flatMap items) := by
  induction l with
  | nil => exact absurd hi List.not_mem_nil
  | cons j rest ih =>
    obtain ⟨hnot, hrest⟩ := List.nodup_cons.mp hnodup
    rw [List.flatMap_cons, List.flatMap_cons]
    by_cases hj : j = i
    · subst hj
      have hsame : rest.flatMap items' = rest.flatMap items :=
        List.flatMap_congr fun k hk => hother k (List.mem_cons_of_mem _ hk)
          (fun he => hnot (he ▸ hk))
      rw [hsame, ← List.append_assoc]
      exact hat.append_right _
    · rw [hother j List.mem_cons_self hj]
      have hperm := (ih ((List.mem_cons.mp hi).resolve_left (Ne.symm hj)) hrest
        (fun k hk => hother k (List.mem_cons_of_mem _ hk))).append_left (items j)
      refine hperm.trans ?_
      rw [← List.append_assoc, ← List.append_assoc]
      exact List.perm_append_comm.append_right _

theorem insert (h : Buckets route key buckets items) (e : ε)
    (hat : (items' (route (key e))).Perm (e :: items (route (key e))))
    (hother : ∀ j ∈ buckets, j ≠ route (key e) → items' j = items j) :
    Buckets route key buckets items' ∧ (buckets.flatMap items').Perm
      (e :: buckets.flatMap items) := by
  refine ⟨⟨h.distinct, h.routed, ?_⟩,
    @flatMap_perm_of_mem _ _ _ _ buckets _ (h.routed _) h.distinct [e] hat hother⟩
  intro i hi x hx
  by_cases heq : i = route (key e)
  · subst heq
    obtain rfl | hx := List.mem_cons.mp (hat.mem_iff.mp hx)
    · rfl
    · exact h.placed _ hi x hx
  · rw [hother i hi heq] at hx
    exact h.placed i hi x hx

theorem split [LE κ] [DecidableLE κ] [DecidableEq ι] (h : Buckets route key buckets items)
    {at_ new : ι} {bound : κ} (hat_ : at_ ∈ buckets) (hnew : new ∉ buckets)
    (hroute : ∀ k, route' k = if bound ≤ k ∧ route k = at_ then new else route k)
    (hperm : (items' at_ ++ items' new).Perm (items at_))
    (hlow : ∀ e ∈ items' at_, ¬ bound ≤ key e) (hhigh : ∀ e ∈ items' new, bound ≤ key e)
    (hother : ∀ j ∈ buckets, j ≠ at_ → items' j = items j) :
    Buckets route' key (buckets ++ [new]) items' ∧
      ((buckets ++ [new]).flatMap items').Perm (buckets.flatMap items) := by
  refine ⟨⟨?_, ?_, ?_⟩, ?_⟩
  · exact List.Nodup.append h.distinct (List.nodup_singleton _) (List.disjoint_singleton.mpr hnew)
  · intro k
    rw [hroute]
    split
    · exact List.mem_append_right _ (List.mem_singleton_self _)
    · exact List.mem_append_left _ (h.routed k)
  · intro i hi e he
    rw [hroute]
    obtain hi | hi := List.mem_append.mp hi
    · by_cases heq : i = at_
      · subst heq
        rw [if_neg (fun hc => hlow e he hc.1)]
        exact h.placed _ hi e (hperm.mem_iff.mp (List.mem_append_left _ he))
      · rw [hother i hi heq] at he
        have hplace := h.placed i hi e he
        rw [if_neg (fun hc => heq (hplace.symm.trans hc.2))]
        exact hplace
    · obtain rfl := List.mem_singleton.mp hi
      exact if_pos ⟨hhigh e he, h.placed _ hat_ e (hperm.mem_iff.mp (List.mem_append_right _ he))⟩
  · rw [List.flatMap_append, List.flatMap_singleton]
    have hsplit : (buckets.flatMap (Function.update items at_ (items' new ++ items' at_))).Perm
        (items' new ++ buckets.flatMap items') := by
      apply flatMap_perm_of_mem buckets hat_ h.distinct
      · rw [Function.update_self]
      · intro j hj hne
        rw [Function.update_of_ne hne, hother j hj hne]
    refine List.perm_append_comm.trans (hsplit.symm.trans ?_)
    apply @flatMap_perm_of_mem _ _ items _ buckets _ hat_ h.distinct []
    · rw [Function.update_self]
      exact List.perm_append_comm.trans hperm
    · exact fun j _ hne => Function.update_of_ne hne _ _

end Buckets

end Buckets

end FsExt4.Lib
