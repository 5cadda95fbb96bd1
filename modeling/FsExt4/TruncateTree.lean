import FsExt4.Truncate
import FsExt4.ExtentInsert
import Mathlib.Data.List.Count

namespace FsExt4

open Lib

section Cut

variable (stop : Nat)

def Extent.cut (e : Extent) : Option Extent :=
  if ShrinkWalk.keep stop e = 0 then none else some { e with length := ShrinkWalk.keep stop e }

def Extent.dropped (e : Extent) : Option (Nat × Nat) :=
  if ShrinkWalk.keep stop e < e.length then
    some (e.physicalBlock + ShrinkWalk.keep stop e, e.length - ShrinkWalk.keep stop e)
  else none

/-- The tree of what is left, without the nodes that hold nothing any more. -/
def cut : {n : Nat} → LevelTree Extent n → LevelTree Extent n
  | 0, t => LevelTree.leaf (t.entries.filterMap (Extent.cut stop))
  | _ + 1, t => LevelTree.node (t.children.filterMap (fun c =>
      if (cut c.2).fill = 0 then none else some (c.1, cut c.2)))

def emptied : {n : Nat} → LevelTree Extent n → List Nat
  | 0, _ => []
  | _ + 1, t => t.children.flatMap (fun c =>
      emptied c.2 ++ if (cut stop c.2).fill = 0 then [c.1] else [])

variable {stop} {n : Nat}

def cutChild (stop : Nat) (c : Nat × LevelTree Extent n) : Option (Nat × LevelTree Extent n) :=
  if (cut stop c.2).fill = 0 then none else some (c.1, cut stop c.2)

theorem cut_node (l : List (Nat × LevelTree Extent n)) :
    cut stop (LevelTree.node l) = LevelTree.node (l.filterMap (cutChild stop)) := rfl

theorem entries_eq_nil_of_fill {t : LevelTree Extent n} (h : t.fill = 0) : t.entries = [] := by
  cases n with
  | zero => exact List.length_eq_zero_iff.mp h
  | succ n =>
    have hnil : t.children = [] := List.length_eq_zero_iff.mp h
    change t.children.flatMap _ = []
    rw [hnil]
    rfl

theorem addresses_eq_nil_of_fill {t : LevelTree Extent n} (h : t.fill = 0) : t.addresses = [] := by
  cases n with
  | zero => rfl
  | succ n =>
    have hnil : t.children = [] := List.length_eq_zero_iff.mp h
    change t.children.flatMap _ = []
    rw [hnil]
    rfl

theorem entries_cut (t : LevelTree Extent n) :
    (cut stop t).entries = t.entries.filterMap (Extent.cut stop) := by
  induction n with
  | zero => rfl
  | succ n ih =>
    change (t.children.filterMap (cutChild stop)).flatMap (fun c => c.2.entries) =
      (t.children.flatMap (fun c => c.2.entries)).filterMap (Extent.cut stop)
    induction t.children with
    | nil => rfl
    | cons c cs ihc =>
      rw [List.flatMap_cons, List.filterMap_append, ← ihc, ← ih c.2]
      by_cases hfill : (cut stop c.2).fill = 0
      · rw [List.filterMap_cons_none (by rw [cutChild, if_pos hfill]), entries_eq_nil_of_fill hfill,
          List.nil_append]
      · rw [List.filterMap_cons_some (by rw [cutChild, if_neg hfill]), List.flatMap_cons]

theorem addresses_cut (t : LevelTree Extent n) :
    ((cut stop t).addresses ++ emptied stop t).Perm t.addresses := by
  induction n with
  | zero => exact .nil
  | succ n ih =>
    change ((t.children.filterMap (cutChild stop)).flatMap (fun c => c.1 :: c.2.addresses) ++
      t.children.flatMap (fun c => emptied stop c.2 ++
        if (cut stop c.2).fill = 0 then [c.1] else [])).Perm
      (t.children.flatMap (fun c => c.1 :: c.2.addresses))
    induction t.children with
    | nil => exact .nil
    | cons c cs ihc =>
      rw [List.flatMap_cons, List.flatMap_cons, List.perm_iff_count]
      intro a
      have hc := (ih c.2).count_eq a
      have hcs := ihc.count_eq a
      by_cases hfill : (cut stop c.2).fill = 0
      · rw [List.filterMap_cons_none (by rw [cutChild, if_pos hfill]), if_pos hfill]
        rw [addresses_eq_nil_of_fill hfill] at hc
        simp only [List.count_append, List.count_cons, List.count_nil] at hc hcs ⊢
        omega
      · rw [List.filterMap_cons_some (by rw [cutChild, if_neg hfill]), if_neg hfill,
          List.flatMap_cons]
        simp only [List.count_append, List.count_cons, List.count_nil] at hc hcs ⊢
        omega

theorem fill_cut_le (t : LevelTree Extent n) : (cut stop t).fill ≤ t.fill := by
  cases n with
  | zero => exact List.length_filterMap_le _ _
  | succ n => exact List.length_filterMap_le _ _

theorem filled_cut {cap : Nat} {t : LevelTree Extent n} (h : t.Filled cap) :
    (cut stop t).Filled cap := by
  induction n with
  | zero => trivial
  | succ n ih =>
    intro c hc
    obtain ⟨c₀, hc₀, heq⟩ := List.mem_filterMap.mp hc
    change cutChild stop c₀ = some c at heq
    unfold cutChild at heq
    split at heq
    · cases heq
    · rename_i hfill
      cases heq
      obtain ⟨⟨-, hle⟩, hbelow⟩ := h c₀ hc₀
      exact ⟨⟨Nat.pos_of_ne_zero hfill, Nat.le_trans (fill_cut_le _) hle⟩, ih hbelow⟩

end Cut

section Entries

variable {stop : Nat} {es : List Extent}

theorem Extent.cut_eq_some {e e' : Extent} (h : e.cut stop = some e') :
    1 ≤ e'.length ∧ e'.length ≤ e.length ∧
      e' = { e with length := ShrinkWalk.keep stop e } := by
  unfold Extent.cut at h
  split at h
  · cases h
  · rename_i hne
    cases h
    exact ⟨Nat.pos_of_ne_zero hne, Nat.min_le_right _ _, rfl⟩

theorem InOrder.cut (h : InOrder es) : InOrder (es.filterMap (Extent.cut stop)) := by
  constructor
  · refine List.Pairwise.filterMap _ ?_ h.apart
    intro a b hab a' ha' b' hb'
    obtain ⟨-, hle, rfl⟩ := Extent.cut_eq_some ha'
    obtain ⟨-, -, rfl⟩ := Extent.cut_eq_some hb'
    dsimp only at hle ⊢
    omega
  · intro e' he'
    obtain ⟨e, he, hcut⟩ := List.mem_filterMap.mp he'
    have hvalid := h.valid e he
    obtain ⟨hpos, hle, rfl⟩ := Extent.cut_eq_some hcut
    exact ⟨hvalid.logical, hpos, Nat.le_trans hle hvalid.len, hvalid.physical⟩

theorem mapping_cons (e : Extent) (es : List Extent) (logical : Nat) :
    mapping (e :: es) logical =
      if e.contains logical then some (e.map logical, e.uninitialized) else mapping es logical := by
  unfold mapping
  rw [Extent.contains_eq_covers]
  split
  · rename_i h
    rw [List.find?_cons_of_pos h]
    rfl
  · rename_i h
    rw [List.find?_cons_of_neg h]

theorem mapping_cut (es : List Extent) (logical : Nat) :
    mapping (es.filterMap (Extent.cut stop)) logical =
      if logical < stop then mapping es logical else none := by
  induction es with
  | nil => exact (ite_self none).symm
  | cons e es ih =>
    cases hcut : e.cut stop with
    | none =>
      rw [List.filterMap_cons_none hcut, ih, mapping_cons]
      split
      · rename_i hlt
        -- nothing of this extent is below the new end
        have hout : ¬ e.contains logical = true := by
          intro hc
          have hrange := contains_iff.mp hc
          unfold Extent.cut at hcut
          split at hcut
          · rename_i hzero
            unfold ShrinkWalk.keep at hzero
            omega
          · cases hcut
        rw [if_neg hout]
      · rfl
    | some e' =>
      obtain ⟨-, -, rfl⟩ := Extent.cut_eq_some hcut
      rw [List.filterMap_cons_some hcut, mapping_cons, mapping_cons, ih]
      have hiff : Extent.contains { e with length := ShrinkWalk.keep stop e } logical = true ↔
          logical < stop ∧ e.contains logical = true := by
        rw [contains_iff, contains_iff, ShrinkWalk.keep]
        dsimp only
        omega
      by_cases hlt : logical < stop
      · rw [if_pos hlt, if_pos hlt]
        by_cases hc : e.contains logical = true
        · rw [if_pos hc, if_pos (hiff.mpr ⟨hlt, hc⟩)]
          rfl
        · rw [if_neg hc, if_neg (fun h => hc (hiff.mp h).2)]
      · rw [if_neg hlt, if_neg hlt, if_neg (fun h => hlt (hiff.mp h).1)]

end Entries

def Clear (a b : Nat × Nat) : Prop := a.2 ≤ b.1 ∨ b.2 ≤ a.1

theorem Clear.symm {a b : Nat × Nat} (h : Clear a b) : Clear b a := Or.symm h

def dataRange (e : Extent) : Nat × Nat := (e.physicalBlock, e.physicalBlock + e.length)

def nodeRange (b : Nat) : Nat × Nat := (b, b + 1)

def runRange (run : Nat × Nat) : Nat × Nat := (run.1, run.1 + run.2)

theorem pairwise_of_apartInOrder {l : List (Nat × Nat)} (h : apartInOrder l = true)
    (hne : ∀ r ∈ l, r.1 < r.2) : l.Pairwise (fun a b => a.2 ≤ b.1) := by
  induction l with
  | nil => exact .nil
  | cons a l ih =>
    cases l with
    | nil => exact List.pairwise_singleton _ _
    | cons b l =>
      rw [apartInOrder, Bool.and_eq_true, decide_eq_true_iff] at h
      have hrest := ih h.2 (fun r hr => hne r (List.mem_cons_of_mem _ hr))
      refine List.pairwise_cons.mpr ⟨?_, hrest⟩
      intro c hc
      obtain rfl | hc := List.mem_cons.mp hc
      · exact h.1
      · have hb := hne b (by simp)
        have hbc := (List.pairwise_cons.mp hrest).1 c hc
        omega

theorem clear_of_apartInOrder {l : List (Nat × Nat)} (h : apartInOrder (sortRanges l) = true)
    (hne : ∀ r ∈ l, r.1 < r.2) : l.Pairwise Clear := by
  have hperm : (sortRanges l).Perm l := List.perm_insertionSort _ l
  rw [← hperm.pairwise_iff (fun hab => hab.symm)]
  exact (pairwise_of_apartInOrder h (fun r hr => hne r (hperm.mem_iff.mp hr))).imp .inl

section Freed

variable {stop : Nat} {es : List Extent} {addresses empty : List Nat}

theorem clear_dropped {e : Extent} {run : Nat × Nat} (h : e.dropped stop = some run) {r : Nat × Nat}
    (hr : Clear (dataRange e) r) : Clear (runRange run) r := by
  unfold Extent.dropped at h
  split at h
  · cases h
    simp only [Clear, dataRange, runRange] at hr ⊢
    omega
  · cases h

theorem pairwise_clear_freed
    (hclear : (es.map dataRange ++ addresses.map nodeRange).Pairwise Clear) (hempty : empty.Nodup)
    (hsub : ∀ b ∈ empty, b ∈ addresses) :
    ((es.filterMap (Extent.dropped stop) ++ empty.map (fun b => (b, 1))).map runRange).Pairwise
      Clear := by
  obtain ⟨hdata, -, hcross⟩ := List.pairwise_append.mp hclear
  rw [List.map_append, List.pairwise_append]
  refine ⟨?_, ?_, ?_⟩
  · rw [List.pairwise_map]
    refine List.Pairwise.filterMap _ ?_ (List.pairwise_map.mp hdata)
    intro a b hab x hx y hy
    exact (clear_dropped hy (clear_dropped hx hab).symm).symm
  · rw [List.map_map, List.pairwise_map]
    refine List.Pairwise.imp ?_ hempty
    intro a b hab
    change a + 1 ≤ b ∨ b + 1 ≤ a
    omega
  · intro x hx y hy
    obtain ⟨run, hrun, rfl⟩ := List.mem_map.mp hx
    obtain ⟨e, he, hdropped⟩ := List.mem_filterMap.mp hrun
    rw [List.map_map] at hy
    obtain ⟨b, hb, rfl⟩ := List.mem_map.mp hy
    exact clear_dropped hdropped
      (hcross _ (List.mem_map_of_mem he) _ (List.mem_map_of_mem (hsub b hb)))

theorem mem_dropped_iff (e : Extent) (block : Nat) :
    (∃ run, e.dropped stop = some run ∧ run.1 ≤ block ∧ block < run.1 + run.2) ↔
      ∃ logical, stop ≤ logical ∧ e.contains logical = true ∧ e.map logical = block := by
  constructor
  · rintro ⟨run, hrun, hle, hlt⟩
    unfold Extent.dropped ShrinkWalk.keep at hrun
    split at hrun
    · cases hrun
      dsimp only at hle hlt
      refine ⟨e.logicalBlock + (block - e.physicalBlock), ?_, contains_iff.mpr ?_, ?_⟩
      · omega
      · omega
      · unfold Extent.map
        omega
    · cases hrun
  · rintro ⟨logical, hstop, hc, rfl⟩
    have hrange := contains_iff.mp hc
    unfold Extent.dropped ShrinkWalk.keep Extent.map
    rw [if_pos (by omega)]
    refine ⟨_, rfl, ?_, ?_⟩
    · dsimp only
      omega
    · dsimp only
      omega

end Freed

end FsExt4
