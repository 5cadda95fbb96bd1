import FsExt4.Lib.Bytes
import Mathlib.Data.List.Induction

namespace FsExt4.Lib

abbrev Image := Nat → UInt8

def Image.read (img : Image) (off n : Nat) : Bytes := (List.range n).map (fun i => img (off + i))

def Image.write (img : Image) (off : Nat) (data : Bytes) : Image := fun p =>
  if off ≤ p ∧ p < off + data.length then data.getD (p - off) 0 else img p

def Image.writeAll (img : Image) : List (Nat × Bytes) → Image
  | [] => img
  | w :: ws => Image.writeAll (img.write w.1 w.2) ws

def Image.ofBlocks (bs : Nat) (f : Nat → Bytes) : Image := fun p => (f (p / bs)).getD (p % bs) 0

@[simp] theorem Image.length_read (img : Image) (off n : Nat) : (img.read off n).length = n := by
  simp [Image.read]

theorem Image.getD_read (img : Image) (off n i : Nat) (h : i < n) :
    (img.read off n).getD i 0 = img (off + i) := by
  simp [Image.read, List.getD_eq_getElem?_getD, h]

theorem Image.read_congr (a b : Image) (off n : Nat)
    (h : ∀ p, off ≤ p → p < off + n → a p = b p) : a.read off n = b.read off n := by
  apply List.map_congr_left
  intro i hi
  have hi' : i < n := List.mem_range.mp hi
  exact h (off + i) (by omega) (by omega)

theorem Image.slice_read (img : Image) (off n o m : Nat) (h : o + m ≤ n) :
    slice (img.read off n) o m = img.read (off + o) m := by
  apply ext_getD
  · simp only [length_slice, Image.length_read]
    omega
  · intro i hi
    simp only [length_slice, Image.length_read] at hi
    rw [getD_slice _ _ _ _ (by omega), Image.getD_read _ _ _ _ (by omega),
      Image.getD_read _ _ _ _ (by omega), Nat.add_assoc]

theorem Image.write_of_mem (img : Image) (off : Nat) (data : Bytes) (p : Nat)
    (h1 : off ≤ p) (h2 : p < off + data.length) :
    img.write off data p = data.getD (p - off) 0 := if_pos ⟨h1, h2⟩

theorem Image.write_of_not_mem (img : Image) (off : Nat) (data : Bytes) (p : Nat)
    (h : ¬ (off ≤ p ∧ p < off + data.length)) : img.write off data p = img p := if_neg h

@[simp] theorem Image.write_nil (img : Image) (off : Nat) : img.write off [] = img := by
  funext p
  exact Image.write_of_not_mem img off [] p (by simp)

theorem Image.read_write_self (img : Image) (off : Nat) (data : Bytes) :
    (img.write off data).read off data.length = data := by
  apply ext_getD
  · simp
  · intro i hi
    rw [Image.length_read] at hi
    rw [Image.getD_read _ _ _ _ hi, Image.write_of_mem _ _ _ _ (by omega) (by omega)]
    congr 1
    omega

theorem Image.read_write_disjoint (img : Image) (off : Nat) (data : Bytes) (o n : Nat)
    (h : o + n ≤ off ∨ off + data.length ≤ o) : (img.write off data).read o n = img.read o n := by
  apply Image.read_congr
  intro p h1 h2
  exact Image.write_of_not_mem _ _ _ _ (by omega)

@[simp] theorem Image.writeAll_nil (img : Image) : img.writeAll [] = img := rfl

@[simp] theorem Image.writeAll_cons (img : Image) (w : Nat × Bytes) (ws : List (Nat × Bytes)) :
    img.writeAll (w :: ws) = Image.writeAll (img.write w.1 w.2) ws := rfl

theorem Image.writeAll_append (img : Image) (ws vs : List (Nat × Bytes)) :
    img.writeAll (ws ++ vs) = Image.writeAll (img.writeAll ws) vs := by
  induction ws generalizing img with
  | nil => rfl
  | cons w ws ih => simpa only [List.cons_append, Image.writeAll_cons] using ih (img.write w.1 w.2)

theorem Image.writeAll_of_not_mem (img : Image) (ws : List (Nat × Bytes)) (p : Nat)
    (h : ∀ w ∈ ws, ¬ (w.1 ≤ p ∧ p < w.1 + w.2.length)) : img.writeAll ws p = img p := by
  induction ws generalizing img with
  | nil => rfl
  | cons w ws ih =>
    rw [Image.writeAll_cons, ih _ (fun v hv => h v (List.mem_cons_of_mem _ hv))]
    exact Image.write_of_not_mem _ _ _ _ (h w List.mem_cons_self)

theorem Image.read_writeAll_disjoint (img : Image) (ws : List (Nat × Bytes)) (o n : Nat)
    (h : ∀ w ∈ ws, o + n ≤ w.1 ∨ w.1 + w.2.length ≤ o) :
    (img.writeAll ws).read o n = img.read o n := by
  apply Image.read_congr
  intro p h1 h2
  apply Image.writeAll_of_not_mem
  intro w hw
  have := h w hw
  omega

/-- A byte keeps the value a write list gave it through a second list that does not touch it,
and takes the same value from one list whatever was there before. -/
theorem Image.writeAll_congr (a b : Image) (ws : List (Nat × Bytes)) (p : Nat)
    (h : (∃ w ∈ ws, w.1 ≤ p ∧ p < w.1 + w.2.length) ∨ a p = b p) :
    a.writeAll ws p = b.writeAll ws p := by
  induction ws generalizing a b with
  | nil =>
    obtain ⟨w, hw, _⟩ | h := h
    · simp at hw
    · exact h
  | cons w ws ih =>
    rw [Image.writeAll_cons, Image.writeAll_cons]
    apply ih
    by_cases hw : w.1 ≤ p ∧ p < w.1 + w.2.length
    · right
      rw [Image.write_of_mem _ _ _ _ hw.1 hw.2, Image.write_of_mem _ _ _ _ hw.1 hw.2]
    · obtain ⟨v, hv, hvp⟩ | h := h
      · obtain rfl | hv := List.mem_cons.mp hv
        · exact absurd hvp hw
        · exact Or.inl ⟨v, hv, hvp⟩
      · right
        rw [Image.write_of_not_mem _ _ _ _ hw, Image.write_of_not_mem _ _ _ _ hw, h]

theorem Image.read_ofBlocks (bs : Nat) (f : Nat → Bytes) (b : Nat) (h : (f b).length = bs) :
    (Image.ofBlocks bs f).read (b * bs) bs = f b := by
  apply ext_getD
  · rw [Image.length_read, h]
  · intro i hi
    rw [Image.length_read] at hi
    have hpos : 0 < bs := by omega
    have hdiv : (b * bs + i) / bs = b := by
      rw [Nat.mul_comm, Nat.mul_add_div hpos, Nat.div_eq_of_lt hi, Nat.add_zero]
    have hmod : (b * bs + i) % bs = i := by
      rw [Nat.mul_comm, Nat.mul_add_mod, Nat.mod_eq_of_lt hi]
    rw [Image.getD_read _ _ _ _ hi]
    simp only [Image.ofBlocks, hdiv, hmod]

theorem Image.writeAll_writeAll_self (img : Image) (ws : List (Nat × Bytes)) :
    (img.writeAll ws).writeAll ws = img.writeAll ws := by
  funext p
  apply Image.writeAll_congr
  by_cases h : ∃ w ∈ ws, w.1 ≤ p ∧ p < w.1 + w.2.length
  · exact Or.inl h
  · right
    apply Image.writeAll_of_not_mem
    intro w hw hp
    exact h ⟨w, hw, hp⟩

def Image.block (img : Image) (bs b : Nat) : Bytes := img.read (b * bs) bs

def atOffsets (bs : Nat) (ws : List (Nat × Bytes)) : List (Nat × Bytes) :=
  ws.map (fun w => (w.1 * bs, w.2))

def Image.writeBlocks (img : Image) (bs : Nat) (ws : List (Nat × Bytes)) : Image :=
  img.writeAll (atOffsets bs ws)

def lastWrite (ws : List (Nat × Bytes)) (b : Nat) : Option Bytes :=
  ((ws.filter (fun w => w.1 = b)).getLast?).map Prod.snd

theorem lastWrite_concat (ws : List (Nat × Bytes)) (w : Nat × Bytes) (b : Nat) :
    lastWrite (ws ++ [w]) b = if w.1 = b then some w.2 else lastWrite ws b := by
  unfold lastWrite
  by_cases h : w.1 = b <;> simp [List.filter_append, h]

theorem lastWrite_singleton (a : Nat) (data : Bytes) (b : Nat) :
    lastWrite [(a, data)] b = if a = b then some data else none :=
  lastWrite_concat [] (a, data) b

theorem lastWrite_eq_none (ws : List (Nat × Bytes)) (b : Nat) (h : ∀ w ∈ ws, w.1 ≠ b) :
    lastWrite ws b = none := by
  unfold lastWrite
  rw [List.filter_eq_nil_iff.mpr]
  · rfl
  · intro w hw
    simpa using h w hw

theorem lastWrite_of_mem (ws : List (Nat × Bytes)) (hnd : (ws.map Prod.fst).Nodup)
    (w : Nat × Bytes) (hw : w ∈ ws) : lastWrite ws w.1 = some w.2 := by
  induction ws using List.reverseRecOn with
  | nil => simp at hw
  | append_singleton ws v ih =>
    rw [List.map_append, List.nodup_append] at hnd
    obtain ⟨h1, -, h3⟩ := hnd
    rw [lastWrite_concat]
    obtain hw | hw := List.mem_append.mp hw
    · rw [if_neg, ih h1 hw]
      exact fun he => h3 w.1 (List.mem_map_of_mem hw) v.1 (by simp) he.symm
    · rw [List.mem_singleton.mp hw, if_pos rfl]

theorem block_disjoint (bs a b : Nat) (h : a ≠ b) : a * bs + bs ≤ b * bs ∨ b * bs + bs ≤
    a * bs := by
  obtain h | h := Nat.lt_or_gt_of_ne h
  · left
    have hm := Nat.mul_le_mul_right bs (Nat.succ_le_of_lt h)
    rwa [Nat.succ_mul] at hm
  · right
    have hm := Nat.mul_le_mul_right bs (Nat.succ_le_of_lt h)
    rwa [Nat.succ_mul] at hm

theorem Image.block_writeBlocks (img : Image) (bs : Nat) (ws : List (Nat × Bytes))
    (hlen : ∀ w ∈ ws, w.2.length = bs) (b : Nat) :
    (img.writeBlocks bs ws).block bs b = (lastWrite ws b).getD (img.block bs b) := by
  induction ws using List.reverseRecOn with
  | nil => rfl
  | append_singleton ws w ih =>
    have hws := ih (fun v hv => hlen v (List.mem_append_left _ hv))
    have hw : w.2.length = bs := hlen w (by simp)
    have hstep : img.writeBlocks bs (ws ++ [w]) =
        (img.writeBlocks bs ws).write (w.1 * bs) w.2 := by
      unfold Image.writeBlocks atOffsets
      rw [List.map_append, Image.writeAll_append]
      rfl
    rw [hstep, lastWrite_concat]
    by_cases hb : w.1 = b
    · subst hb
      rw [if_pos rfl, Option.getD_some]
      have hr := Image.read_write_self (img.writeBlocks bs ws) (w.1 * bs) w.2
      rwa [hw] at hr
    · rw [if_neg hb, ← hws]
      apply Image.read_write_disjoint
      rw [hw]
      exact (block_disjoint bs w.1 b hb).symm

theorem Image.writeBlocks_of_not_mem (img : Image) (bs : Nat) (ws : List (Nat × Bytes))
    (hlen : ∀ w ∈ ws, w.2.length = bs) (p : Nat)
    (h : ∀ w ∈ ws, ¬ (w.1 * bs ≤ p ∧ p < w.1 * bs + bs)) : img.writeBlocks bs ws p = img p := by
  apply Image.writeAll_of_not_mem
  intro v hv
  obtain ⟨w, hw, rfl⟩ := List.mem_map.mp hv
  dsimp only
  rw [hlen w hw]
  exact h w hw

theorem lastWrite_mem {ws : List (Nat × Bytes)} {b : Nat} {data : Bytes}
    (h : lastWrite ws b = some data) : (b, data) ∈ ws := by
  unfold lastWrite at h
  obtain ⟨w, hw, rfl⟩ := Option.map_eq_some_iff.mp h
  have hmem := List.mem_filter.mp (List.mem_of_getLast? hw)
  have hb : w.1 = b := of_decide_eq_true hmem.2
  rw [← hb]
  exact hmem.1

theorem lastWrite_isSome_of_mem {ws : List (Nat × Bytes)} {w : Nat × Bytes} (h : w ∈ ws) :
    ∃ data, lastWrite ws w.1 = some data := by
  cases hl : lastWrite ws w.1 with
  | some data => exact ⟨data, rfl⟩
  | none =>
    unfold lastWrite at hl
    rw [Option.map_eq_none_iff, List.getLast?_eq_none_iff, List.filter_eq_nil_iff] at hl
    exact absurd (decide_eq_true rfl) (hl w h)

theorem Image.writeAll_sublist (img : Image) {ws kept : List (Nat × Bytes)} (h : kept.Sublist ws) :
    (img.writeAll kept).writeAll ws = img.writeAll ws := by
  funext p
  apply Image.writeAll_congr
  by_cases hp : ∃ w ∈ ws, w.1 ≤ p ∧ p < w.1 + w.2.length
  · exact Or.inl hp
  · right
    apply Image.writeAll_of_not_mem
    intro w hw hc
    exact hp ⟨w, h.subset hw, hc⟩

theorem Image.writeAll_value (img : Image) (ws : List (Nat × Bytes)) (p : Nat) (x : UInt8)
    (hws : ∀ w ∈ ws, w.1 ≤ p → p < w.1 + w.2.length → w.2.getD (p - w.1) 0 = x) (himg : img p = x) :
    img.writeAll ws p = x := by
  induction ws generalizing img with
  | nil => exact himg
  | cons w rest ih =>
    rw [Image.writeAll_cons]
    apply ih _ (fun v hv => hws v (List.mem_cons_of_mem _ hv))
    by_cases hw : w.1 ≤ p ∧ p < w.1 + w.2.length
    · rw [Image.write_of_mem _ _ _ _ hw.1 hw.2]
      exact hws w List.mem_cons_self hw.1 hw.2
    · rw [Image.write_of_not_mem _ _ _ _ hw]
      exact himg

theorem Image.writeAll_map_congr {α : Type} (f g : α → Nat × Bytes) (p : Nat) (l : List α)
    (h : ∀ x ∈ l, (f x).1 = (g x).1 ∧ (f x).2.length = (g x).2.length ∧ ((f x).1 ≤ p →
      p < (f x).1 + (f x).2.length → (f x).2.getD (p - (f x).1) 0 = (g x).2.getD (p - (f x).1) 0))
    (a b : Image) (hab : a p = b p) : a.writeAll (l.map f) p = b.writeAll (l.map g) p := by
  induction l generalizing a b with
  | nil => exact hab
  | cons x rest ih =>
    obtain ⟨h1, h2, h3⟩ := h x List.mem_cons_self
    rw [List.map_cons, List.map_cons, Image.writeAll_cons, Image.writeAll_cons]
    apply ih (fun y hy => h y (List.mem_cons_of_mem _ hy))
    by_cases hin : (f x).1 ≤ p ∧ p < (f x).1 + (f x).2.length
    · rw [Image.write_of_mem _ _ _ _ hin.1 hin.2, Image.write_of_mem _ _ _ _ (by omega)
        (by omega), ← h1]
      exact h3 hin.1 hin.2
    · rw [Image.write_of_not_mem _ _ _ _ hin, Image.write_of_not_mem _ _ _ _ (by omega)]
      exact hab

end FsExt4.Lib
