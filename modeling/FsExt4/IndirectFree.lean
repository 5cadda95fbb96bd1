import FsExt4.IndirectPlan
import Mathlib.Data.List.Destutter
import Mathlib.Data.List.Sort

namespace FsExt4.Indirect

open Lib PointerTree

structure FreeRun where
  start : Nat
  len : Nat
  deriving DecidableEq

structure FreedBlocks where
  dataRuns : List FreeRun
  indirectBlocks : List Nat
  deriving DecidableEq

/-- What has been gathered, and how many logical blocks are still below the bound. -/
structure FreeState where
  remaining : Nat
  dataBlocks : List Nat
  indirectBlocks : List Nat

def readBlock (blockSize blockNo : Nat) : DevIo Bytes :=
  if 2 ^ 64 ≤ blockNo * blockSize then .fail (.corrupt "indirect_mut: block byte offset overflow")
  else readAt (blockNo * blockSize) blockSize

def dataPtrs (buf : Bytes) (take : Nat) : List Nat :=
    ((List.range take).map (ptrAt buf)).filter (· ≠ 0)

/-- The first `n` pointers of a block, each to a block of `room` logical blocks. -/
def freeChildren (free : Nat → FreeState → DevIo FreeState) (room : Nat) (buf : Bytes) :
    Nat → FreeState → DevIo FreeState
  | 0, st => pure st
  | n + 1, st => do
    let st ← freeChildren free room buf n st
    if ptrAt buf n = 0 then pure { st with remaining := st.remaining - room }
    else free (ptrAt buf n) st

/-- A pointer block: at the bottom the data blocks that it points to, above it the pointer
blocks. -/
def freeNode (blockSize : Nat) : Nat → Nat → FreeState → DevIo FreeState
  | 0, blk, st => do
    let st := { st with indirectBlocks := st.indirectBlocks ++ [blk] }
    let buf ← readBlock blockSize blk
    let take := min st.remaining (ppb blockSize)
    pure { st with dataBlocks := st.dataBlocks ++ dataPtrs buf take, remaining :=
      st.remaining - take }
  | h + 1, blk, st => do
    let st := { st with indirectBlocks := st.indirectBlocks ++ [blk] }
    let buf ← readBlock blockSize blk
    let count := divCeil (min st.remaining (ppb blockSize ^ (h + 2))) (ppb blockSize ^ (h + 1))
    freeChildren (freeNode blockSize h) (ppb blockSize ^ (h + 1)) buf count st

/-- One tier of the map. Behind the last one nothing asks what remains. -/
def freeTier (iBlock : Bytes) (blockSize slot height : Nat) (st : FreeState) : DevIo FreeState :=
  if 0 < st.remaining ∧ ptrAt iBlock slot ≠ 0 then freeNode blockSize height (ptrAt iBlock slot) st
  else pure { st with remaining := st.remaining - ppb blockSize ^ (height + 1) }

/-- A block that follows the last run makes it longer, any other begins a run. -/
def coalesceFrom : List FreeRun → List Nat → List FreeRun
  | out, [] => out
  | out, b :: rest =>
    match out.getLast? with
    | some last =>
      if last.start + last.len = b then coalesceFrom
        (out.dropLast ++ [{ last with len := last.len + 1 }]) rest
      else coalesceFrom (out ++ [⟨b, 1⟩]) rest
    | none => coalesceFrom (out ++ [⟨b, 1⟩]) rest

def coalesceRuns (sorted : List Nat) : List FreeRun := coalesceFrom [] sorted

def sortDedup (l : List Nat) : List Nat := (l.insertionSort (· ≤ ·)).destutter (· ≠ ·)

def collectForFree (iBlock : Bytes) (blockSize expectedDataBlocks : Nat) : DevIo FreedBlocks :=
  if ¬ blockSize.isPowerOfTwo ∨ blockSize < 1024 then
    .fail (.invalidArgument "indirect_mut: block_size out of range")
  else do
    let direct := min expectedDataBlocks directCount
    let st : FreeState := ⟨expectedDataBlocks - direct, dataPtrs iBlock direct, []⟩
    let st ← freeTier iBlock blockSize 12 0 st
    let st ← freeTier iBlock blockSize 13 1 st
    let st ← freeTier iBlock blockSize 14 2 st
    pure ⟨coalesceRuns (sortDedup st.dataBlocks), sortDedup st.indirectBlocks⟩

section Gather

/-- The first `count` of the places that `look` and `way` describe have been gathered. -/
structure Frees (look : Nat → Result (Option Nat)) (way : Nat → Result (List Nat)) (count : Nat)
    (st st' : FreeState) : Prop where
  remaining : st'.remaining = st.remaining - count
  data : ∀ x, x ∈ st'.dataBlocks ↔ x ∈ st.dataBlocks ∨ ∃ o, o < count ∧ look o = .ok (some x)
  indirect : ∀ x, x ∈ st'.indirectBlocks ↔
    x ∈ st.indirectBlocks ∨ ∃ o, o < count ∧ ∃ t, way o = .ok t ∧ x ∈ t
  reads : ∀ o, o < count → ∃ r, look o = .ok r

def Gathers (look : Nat → Result (Option Nat)) (way : Nat → Result (List Nat)) (count : Nat)
    (st : FreeState) :
    Result FreeState → Prop
  | .ok st' => Frees look way count st st'
  | .error _ => ∃ o, o < count ∧ ∃ e, look o = .error e

variable {look look' : Nat → Result (Option Nat)} {way way' : Nat → Result (List Nat)}
  {count count' : Nat} {st st' st'' : FreeState}

theorem Frees.refl : Frees look way 0 st st where
  remaining := rfl
  data := fun x => by simp
  indirect := fun x => by simp
  reads := fun o ho => absurd ho (Nat.not_lt_zero o)

theorem Frees.congr (h : Frees look way count st st') (hlook : ∀ o < count, look o = look' o)
    (hway : ∀ o < count, way o = way' o) : Frees look' way' count st st' where
  remaining := h.remaining
  data := fun x => by
    rw [h.data]
    exact or_congr_right (exists_congr fun o => and_congr_right fun ho => by rw [hlook o ho])
  indirect := fun x => by
    rw [h.indirect]
    exact or_congr_right (exists_congr fun o => and_congr_right fun ho => by rw [hway o ho])
  reads := fun o ho => hlook o ho ▸ h.reads o ho

theorem Frees.trans (h : Frees look way count st st')
    (h' : Frees (fun o => look (count + o)) (fun o => way (count + o)) count' st' st'') :
    Frees look way (count + count') st st'' where
  remaining := by rw [h'.remaining, h.remaining, Nat.sub_sub]
  data := fun x => by rw [h'.data, h.data, or_assoc, exists_lt_add_iff]
  indirect := fun x => by rw [h'.indirect, h.indirect, or_assoc, exists_lt_add_iff]
  reads := fun o ho => by
    obtain hlt | hge := Nat.lt_or_ge o count
    · exact h.reads o hlt
    · have hnext := h'.reads (o - count) (by omega)
      rwa [Nat.add_sub_cancel' hge] at hnext

end Gather

section Node

variable {bs : Nat} {d : Disk}

theorem exec_readBlock_bind (hbs : bs ≤ 65536) {b : Nat} (hb : b < 2 ^ 32) {α : Type}
    (f : Bytes → DevIo α) : (readBlock bs b >>= f).exec d =
      match ((readAt (b * bs) bs).exec d).1 with
      | .ok buf => (f buf).exec d
      | .error e => (.error e, d) := by
  have hmul : b * bs < 2 ^ 32 * 65537 := by
    refine Nat.lt_of_le_of_lt (Nat.mul_le_mul_left b hbs) ?_
    omega
  have hsame := @exec_readAt_same d (b * bs) bs
  rw [readBlock, if_neg (by omega), Io.exec_bind]
  generalize (readAt (b * bs) bs).exec d = out at hsame ⊢
  obtain ⟨r, d'⟩ := out
  obtain rfl : d' = d := hsame
  cases r <;> rfl

theorem node_error {b : Nat} {e : Error} (h : ((readAt (b * bs) bs).exec d).1 = .error e) :
    node bs d b = .error e := by
  rw [node, h]
  rfl

theorem node_ok {b : Nat} {buf : Bytes} (h : ((readAt (b * bs) bs).exec d).1 = .ok buf) :
    node bs d b = .ok (ptrAt buf) := by
  rw [node, h]
  rfl

theorem mem_dataPtrs {buf : Bytes} {take x : Nat} :
    x ∈ dataPtrs buf take ↔ ∃ o, o < take ∧ (if ptrAt buf o = 0 then none else some (ptrAt buf o)) =
      some x := by
  unfold dataPtrs
  rw [List.mem_filter, List.mem_map]
  constructor
  · rintro ⟨⟨o, ho, rfl⟩, hne⟩
    exact ⟨o, List.mem_range.mp ho, if_neg (by simpa using hne)⟩
  · rintro ⟨o, ho, heq⟩
    split at heq
    · cases heq
    · rename_i hne
      obtain rfl := Option.some.inj heq
      exact ⟨⟨o, List.mem_range.mpr ho, rfl⟩, by simpa using hne⟩

variable {p : Nat}

theorem gathers_error {b h count : Nat} {e : Error} {way : Nat → Result (List Nat)} {st : FreeState}
    (hne : b ≠ 0) (hnode : node bs d b = .error e) (hcount : 0 < count) :
    Gathers (fun o => walk (node bs d) p (h + 1) o b) way count st (.error e) := by
  refine ⟨0, hcount, e, ?_⟩
  dsimp only
  rw [walk, if_neg hne, hnode]
  rfl

theorem exec_freeLeaf (hbs : bs ≤ 65536) (hp : 0 < ppb bs) {b : Nat} (hb : b < 2 ^ 32) (hne : b ≠ 0)
    (st : FreeState) (hrem : 0 < st.remaining) :
    ∃ r, (freeNode bs 0 b st).exec d = (r, d) ∧
      Gathers (fun o => walk (node bs d) (ppb bs) 1 o b) (fun o => trail (node bs d) (ppb bs) 1 o b)
        (min st.remaining (ppb bs ^ (0 + 1))) st r := by
  have hone : ppb bs ^ (0 + 1) = ppb bs := Nat.pow_one _
  rw [freeNode, exec_readBlock_bind hbs hb, hone]
  cases hread : ((readAt (b * bs) bs).exec d).1 with
  | error e => exact ⟨_, rfl, gathers_error hne (node_error hread) (by omega)⟩
  | ok buf =>
    refine ⟨_, rfl, rfl, fun x => ?_, fun x => ?_, fun o ho => ?_⟩
    · dsimp only
      rw [List.mem_append, mem_dataPtrs]
      refine or_congr_right (exists_congr fun o => and_congr_right fun ho => ?_)
      rw [walk, if_neg hne, node_ok hread, Nat.pow_zero, Nat.div_one]
      exact ⟨fun h => congrArg Except.ok h, fun h => Except.ok.inj h⟩
    · dsimp only
      rw [List.mem_append, List.mem_singleton]
      refine or_congr_right ⟨?_, ?_⟩
      · rintro rfl
        refine ⟨0, by omega, [x], ?_, List.mem_singleton.mpr rfl⟩
        rw [trail, if_neg hne, node_ok hread]
        rfl
      · rintro ⟨o, ho, t, ht, hx⟩
        rw [trail, if_neg hne, node_ok hread] at ht
        obtain rfl := Except.ok.inj ht
        exact List.mem_singleton.mp hx
    · rw [walk, if_neg hne, node_ok hread]
      exact ⟨_, rfl⟩

theorem exec_freeChildren {h : Nat} {free : Nat → FreeState → DevIo FreeState} {buf : Bytes}
    (hp : 0 < p)
    (hfree : ∀ b st, b < 2 ^ 32 → b ≠ 0 → 0 < st.remaining → ∃ r, (free b st).exec d = (r, d) ∧
      Gathers (fun o => walk (node bs d) p h o b) (fun o => trail (node bs d) p h o b)
        (min st.remaining (p ^ h)) st r)
    (k : Nat) (st : FreeState) (hk : ∀ j < k, j * p ^ h < st.remaining) :
    ∃ r, (freeChildren free (p ^ h) buf k st).exec d = (r, d) ∧
      Gathers (fun o => walk (node bs d) p h (o % p ^ h) (ptrAt buf (o / p ^ h)))
        (fun o => trail (node bs d) p h (o % p ^ h) (ptrAt buf (o / p ^ h)))
        (min st.remaining (k * p ^ h)) st r := by
  have hP : 0 < p ^ h := Nat.pow_pos hp
  induction k with
  | zero =>
    refine ⟨.ok st, rfl, ?_⟩
    rw [Nat.zero_mul, Nat.min_zero]
    exact Frees.refl
  | succ k ih =>
    obtain ⟨r, hexec, hgathers⟩ := ih (fun j hj => hk j (by omega))
    have hreach := hk k (Nat.lt_succ_self k)
    have hmul : (k + 1) * p ^ h = k * p ^ h + p ^ h := Nat.succ_mul k _
    have hfull : min st.remaining (k * p ^ h) = k * p ^ h := Nat.min_eq_right (by omega)
    rw [hfull] at hgathers
    rw [freeChildren]
    cases r with
    | error e =>
      obtain ⟨o, ho, he⟩ := hgathers
      exact ⟨.error e, Io.exec_bind_error _ _ _ _ _ hexec, o, by omega, he⟩
    | ok st₁ =>
      have hrem : st₁.remaining = st.remaining - k * p ^ h := hgathers.remaining
      have hcount : min st.remaining ((k + 1) * p ^ h) = k * p ^ h + min st₁.remaining
        (p ^ h) := by omega
      rw [Io.exec_bind_ok _ _ _ _ _ hexec, hcount]
      have hplace : ∀ o < min st₁.remaining (p ^ h), (k * p ^ h + o) % p ^ h = o ∧
          (k * p ^ h + o) / p ^ h = k := by
        intro o ho
        have hlt : o < p ^ h := by omega
        rw [Nat.mul_comm, Nat.mul_add_mod, Nat.mod_eq_of_lt hlt, Nat.mul_add_div hP,
          Nat.div_eq_of_lt hlt]
        exact ⟨rfl, rfl⟩
      by_cases hptr : ptrAt buf k = 0
      · rw [if_pos hptr]
        refine ⟨_, rfl, hgathers.trans ⟨?_, fun x => ?_, fun x => ?_, fun o ho => ?_⟩⟩
        · dsimp only
          omega
        · refine ⟨.inl, ?_⟩
          rintro (h | ⟨o, ho, hlook⟩)
          · exact h
          · rw [(hplace o ho).1, (hplace o ho).2, hptr, walk_hole] at hlook
            cases hlook
        · refine ⟨.inl, ?_⟩
          rintro (h | ⟨o, ho, t, hway, hx⟩)
          · exact h
          · rw [(hplace o ho).1, (hplace o ho).2, hptr, trail_hole] at hway
            rw [← Except.ok.inj hway] at hx
            cases hx
        · rw [(hplace o ho).1, (hplace o ho).2, hptr, walk_hole]
          exact ⟨none, rfl⟩
      · obtain ⟨r, hexec', hgathers'⟩ := hfree (ptrAt buf k) st₁ (ptrAt_lt buf k) hptr (by omega)
        rw [if_neg hptr]
        refine ⟨r, hexec', ?_⟩
        cases r with
        | error e =>
          obtain ⟨o, ho, e', he'⟩ := hgathers'
          refine ⟨k * p ^ h + o, by omega, e', ?_⟩
          dsimp only
          rw [(hplace o ho).1, (hplace o ho).2]
          exact he'
        | ok st₂ =>
          refine hgathers.trans (hgathers'.congr (fun o ho => ?_) (fun o ho => ?_))
          · rw [(hplace o ho).1, (hplace o ho).2]
          · rw [(hplace o ho).1, (hplace o ho).2]

theorem exec_freeNode (hbs : BlockSize bs) (h : Nat) {b : Nat} (hb : b < 2 ^ 32) (hne : b ≠ 0)
    (st : FreeState) (hrem : 0 < st.remaining) :
    ∃ r, (freeNode bs h b st).exec d = (r, d) ∧
      Gathers (fun o => walk (node bs d) (ppb bs) (h + 1) o b)
        (fun o => trail (node bs d) (ppb bs) (h + 1) o b)
        (min st.remaining (ppb bs ^ (h + 1))) st r := by
  have hp := hbs.ppb_pos
  induction h generalizing b st with
  | zero => exact exec_freeLeaf hbs.high hp hb hne st hrem
  | succ h ih =>
    have hP : 0 < ppb bs ^ (h + 1) := Nat.pow_pos hp
    have htop : 0 < ppb bs ^ (h + 2) := Nat.pow_pos hp
    have hpow : ppb bs ^ (h + 2) = ppb bs * ppb bs ^ (h + 1) := Nat.pow_succ'
    have hsize : ppb bs ^ (h + 1 + 1) = ppb bs ^ (h + 2) := rfl
    rw [freeNode, exec_readBlock_bind hbs.high hb, hsize]
    cases hread : ((readAt (b * bs) bs).exec d).1 with
    | error e => exact ⟨_, rfl, gathers_error hne (node_error hread) (by omega)⟩
    | ok buf =>
      dsimp only
      have hcount : min st.remaining (divCeil (min st.remaining (ppb bs ^ (h + 2)))
        (ppb bs ^ (h + 1)) * ppb bs ^ (h + 1)) = min st.remaining (ppb bs ^ (h + 2)) := by
        rw [hpow]
        exact min_divCeil_mul hP
      obtain ⟨r, hexec, hgathers⟩ := @exec_freeChildren bs d (ppb bs) (h + 1) (freeNode bs h) buf hp
        (fun b st hb hne hrem => ih hb hne st hrem)
        (divCeil (min st.remaining (ppb bs ^ (h + 2))) (ppb bs ^ (h + 1)))
        { st with indirectBlocks := st.indirectBlocks ++ [b] }
        (fun j hj => by
          have hbelow := mul_lt_of_lt_divCeil hP hj
          dsimp only
          omega)
      dsimp only at hgathers
      rw [hcount] at hgathers
      have hlook : ∀ o, walk (node bs d) (ppb bs) (h + 1) (o % ppb bs ^ (h + 1))
        (ptrAt buf (o / ppb bs ^ (h + 1))) = walk (node bs d) (ppb bs) (h + 2) o b :=
        fun o => (walk_succ hne (node_ok hread) (h + 1) o).symm
      refine ⟨r, hexec, ?_⟩
      cases r with
      | error e =>
        obtain ⟨o, ho, e', he'⟩ := hgathers
        exact ⟨o, ho, e', (hlook o).symm.trans he'⟩
      | ok st' =>
        have hfrees : Frees _ _ _ _ st' := hgathers
        refine ⟨hfrees.remaining, fun x => ?_, fun x => ?_, fun o ho => hlook o ▸ hfrees.reads o ho⟩
        · rw [hfrees.data]
          exact or_congr_right (exists_congr fun o => and_congr_right fun _ => by rw [hlook])
        · have hway := @trail_eq_ok_iff _ (node bs d) (ppb bs) b _ hne (node_ok hread) (h + 1)
          rw [hfrees.indirect, List.mem_append, List.mem_singleton, or_assoc]
          refine or_congr_right ⟨?_, ?_⟩
          · rintro (rfl | ⟨o, ho, t, ht, hx⟩)
            · obtain ⟨t, ht⟩ := (trail_ok_iff _ _ _).mpr (hfrees.reads 0 (by omega))
              exact ⟨0, by omega, x :: t, (hway 0 _).mpr ⟨t, ht, rfl⟩, List.mem_cons_self⟩
            · exact ⟨o, ho, b :: t, (hway o _).mpr ⟨t, ht, rfl⟩, List.mem_cons_of_mem _ hx⟩
          · rintro ⟨o, ho, t, ht, hx⟩
            obtain ⟨t', ht', rfl⟩ := (hway o t).mp ht
            obtain rfl | hx := List.mem_cons.mp hx
            · exact .inl rfl
            · exact .inr ⟨o, ho, t', ht', hx⟩

theorem exec_freeTier (hbs : BlockSize bs) (iBlock : Bytes) (slot h : Nat) (st : FreeState) :
    ∃ r, (freeTier iBlock bs slot h st).exec d = (r, d) ∧
      Gathers (fun o => walk (node bs d) (ppb bs) (h + 1) o (ptrAt iBlock slot))
        (fun o => trail (node bs d) (ppb bs) (h + 1) o (ptrAt iBlock slot))
        (min st.remaining (ppb bs ^ (h + 1))) st r := by
  rw [freeTier]
  by_cases htier : 0 < st.remaining ∧ ptrAt iBlock slot ≠ 0
  · rw [if_pos htier]
    exact exec_freeNode hbs h (ptrAt_lt iBlock slot) htier.2 st htier.1
  · rw [if_neg htier]
    refine ⟨_, rfl, ?_, fun x => ?_, fun x => ?_, fun o ho => ?_⟩
    · dsimp only
      omega
    · refine ⟨.inl, ?_⟩
      rintro (hx | ⟨o, ho, hlook⟩)
      · exact hx
      · have hzero : ptrAt iBlock slot = 0 := by
          by_contra hne
          exact htier ⟨by omega, hne⟩
        rw [hzero, walk_hole] at hlook
        cases hlook
    · refine ⟨.inl, ?_⟩
      rintro (hx | ⟨o, ho, t, hway, hx⟩)
      · exact hx
      · have hzero : ptrAt iBlock slot = 0 := by
          by_contra hne
          exact htier ⟨by omega, hne⟩
        rw [hzero, trail_hole] at hway
        rw [← Except.ok.inj hway] at hx
        cases hx
    · have hzero : ptrAt iBlock slot = 0 := by
        by_contra hne
        exact htier ⟨by omega, hne⟩
      rw [hzero, walk_hole]
      exact ⟨none, rfl⟩

end Node

def FreeRun.blocks (r : FreeRun) : List Nat := List.range' r.start r.len

/-- Runs in order, each with a block missing behind it. -/
structure Separated (runs : List FreeRun) : Prop where
  gaps : runs.Pairwise (fun a b => a.start + a.len < b.start)
  nonempty : ∀ r ∈ runs, 0 < r.len

theorem mem_sortDedup {l : List Nat} {x : Nat} : x ∈ sortDedup l ↔ x ∈ l := by
  rw [sortDedup, (List.pairwise_insertionSort (· ≤ ·) l).destutter_eq_dedup, List.mem_dedup,
    List.mem_insertionSort]

theorem sortDedup_pairwise (l : List Nat) : (sortDedup l).Pairwise (· < ·) := by
  have hsorted := List.pairwise_insertionSort (· ≤ ·) l
  rw [sortDedup, hsorted.destutter_eq_dedup]
  have hle := hsorted.sublist (List.dedup_sublist _)
  exact (hle.and (List.nodup_dedup _)).imp (fun h => Nat.lt_of_le_of_ne h.1 h.2)

theorem coalesceFrom_spec (l : List Nat) (out : List FreeRun) (hout : Separated out)
    (hsorted : (out.flatMap FreeRun.blocks ++ l).Pairwise (· < ·)) :
    Separated (coalesceFrom out l) ∧
      (coalesceFrom out l).flatMap FreeRun.blocks = out.flatMap FreeRun.blocks ++ l := by
  induction l generalizing out with
  | nil => exact ⟨hout, (List.append_nil _).symm⟩
  | cons b rest ih =>
    have hnext : ∀ out' : List FreeRun, Separated out' →
        out'.flatMap FreeRun.blocks = out.flatMap FreeRun.blocks ++ [b] →
        Separated (coalesceFrom out' rest) ∧
          (coalesceFrom out' rest).flatMap FreeRun.blocks = out.flatMap FreeRun.blocks ++
            b :: rest := by
      intro out' hsep hblocks
      have h := ih out' hsep (by rw [hblocks, List.append_assoc]; exact hsorted)
      rw [hblocks, List.append_assoc] at h
      exact h
    have hone : (⟨b, 1⟩ : FreeRun).blocks = [b] := rfl
    obtain rfl | ⟨front, last, rfl⟩ := List.eq_nil_or_concat out
    · exact hnext [⟨b, 1⟩] ⟨List.pairwise_singleton _ _, by simp⟩ rfl
    · rw [List.concat_eq_append] at *
      obtain ⟨hfront, -, hlast⟩ := List.pairwise_append.mp hout.gaps
      have hpos := hout.nonempty last (by simp)
      rw [coalesceFrom, List.getLast?_concat]
      dsimp only
      by_cases hb : last.start + last.len = b
      · rw [if_pos hb, List.dropLast_concat]
        refine hnext _ ⟨List.pairwise_append.mpr ⟨hfront, List.pairwise_singleton _ _, ?_⟩, ?_⟩ ?_
        · intro a ha r hr
          obtain rfl := List.mem_singleton.mp hr
          exact hlast a ha last (List.mem_singleton.mpr rfl)
        · intro r hr
          obtain hr | hr := List.mem_append.mp hr
          · exact hout.nonempty r (List.mem_append_left _ hr)
          · obtain rfl := List.mem_singleton.mp hr
            exact Nat.succ_pos _
        · rw [List.flatMap_append, List.flatMap_append, List.flatMap_singleton,
            List.flatMap_singleton, List.append_assoc]
          congr 1
          rw [FreeRun.blocks, FreeRun.blocks, ← hb]
          exact List.range'_1_concat
      · rw [if_neg hb]
        -- the last block of the last run is below the next one, and not the one in front of it
        have hbelow : last.start + last.len < b := by
          have hmem : last.start + (last.len - 1) ∈ (front ++ [last]).flatMap FreeRun.blocks := by
            rw [List.mem_flatMap]
            exact ⟨last, by simp, List.mem_range'_1.mpr ⟨by omega, by omega⟩⟩
          have hlt := (List.pairwise_append.mp hsorted).2.2 _ hmem b List.mem_cons_self
          omega
        refine hnext _ ⟨List.pairwise_append.mpr ⟨hout.gaps, List.pairwise_singleton _ _, ?_⟩, ?_⟩
          ?_
        · intro a ha r hr
          obtain rfl := List.mem_singleton.mp hr
          obtain ha | ha := List.mem_append.mp ha
          · have hgap := hlast a ha last (List.mem_singleton.mpr rfl)
            dsimp only
            omega
          · obtain rfl := List.mem_singleton.mp ha
            exact hbelow
        · intro r hr
          obtain hr | hr := List.mem_append.mp hr
          · exact hout.nonempty r hr
          · obtain rfl := List.mem_singleton.mp hr
            exact Nat.one_pos
        · rw [List.flatMap_append, List.flatMap_singleton, hone]

theorem coalesceRuns_spec {l : List Nat} (hsorted : l.Pairwise (· < ·)) :
    Separated (coalesceRuns l) ∧ (coalesceRuns l).flatMap FreeRun.blocks = l :=
  coalesceFrom_spec l [] ⟨.nil, nofun⟩ hsorted

section Map

variable {iBlock : Bytes} {bs bound : Nat} {d : Disk}

def mapped (iBlock : Bytes) (bs : Nat) (d : Disk) (i : Nat) : Result (Option Nat) :=
  ((lookup iBlock bs i).exec d).1

theorem mapped_eq (hbs : BlockSize bs) {i : Nat} (hi : i < addressable bs) :
    mapped iBlock bs d i = walk (node bs d) (ppb bs) (tierOf bs i).height (i - (tierOf bs i).first)
      (ptrAt iBlock (tierOf bs i).slot) := by
  rw [mapped, exec_lookup hbs hi]

theorem exec_lookup_iff (hbs : BlockSize bs) {i : Nat} (hi : i < addressable bs)
    (r : Result (Option Nat)) :
    (lookup iBlock bs i).exec d = (r, d) ↔ mapped iBlock bs d i = r := by
  rw [mapped, exec_lookup hbs hi]
  exact ⟨fun h => (Prod.mk.inj h).1, fun h => by rw [← h]⟩

structure IsTier (bs first slot height : Nat) : Prop where
  range : first + ppb bs ^ (height + 1) ≤ addressable bs
  tier : ∀ o < ppb bs ^ (height + 1), tierOf bs (first + o) = ⟨height + 1, first, slot⟩

theorem isTier_single : IsTier bs directCount 12 0 where
  range := by
    rw [Nat.zero_add, Nat.pow_one]
    unfold addressable
    omega
  tier := fun o ho => by
    rw [Nat.zero_add, Nat.pow_one] at ho
    rw [tierOf, if_neg (by omega), if_pos (by omega)]

theorem isTier_double : IsTier bs (directCount + ppb bs) 13 1 where
  range := by
    have hsize : ppb bs ^ (1 + 1) = ppb bs ^ 2 := rfl
    unfold addressable
    omega
  tier := fun o ho => by
    have hsize : ppb bs ^ (1 + 1) = ppb bs ^ 2 := rfl
    rw [hsize] at ho
    rw [tierOf, if_neg (by omega), if_neg (by omega), if_pos (by omega)]

theorem isTier_triple : IsTier bs (directCount + ppb bs + ppb bs ^ 2) 14 2 where
  range := Nat.le_refl _
  tier := fun o ho => by
    rw [tierOf, if_neg (by omega), if_neg (by omega), if_neg (by omega)]

abbrev Gathered (iBlock : Bytes) (bs bound : Nat) (d : Disk) (count : Nat)
    (st : FreeState) : Prop :=
  Frees (mapped iBlock bs d) (pointerBlocks iBlock bs d) count ⟨bound, [], []⟩ st

theorem exec_tier (hbs : BlockSize bs) {first slot h : Nat} (ht : IsTier bs first slot h)
    {st : FreeState} (hst : Gathered iBlock bs bound d (min bound first) st) :
    ∃ r, (freeTier iBlock bs slot h st).exec d = (r, d) ∧
      match r with
      | .ok st' => Gathered iBlock bs bound d (min bound (first + ppb bs ^ (h + 1))) st'
      | .error _ => ∃ i, i < bound ∧ i < addressable bs ∧ ∃ e, mapped iBlock bs d i = .error e := by
  have hrem : st.remaining = bound - min bound first := hst.remaining
  have hrange := ht.range
  have hplace : ∀ o < min st.remaining (ppb bs ^ (h + 1)),
      walk (node bs d) (ppb bs) (h + 1) o (ptrAt iBlock slot) = mapped iBlock bs d
        (min bound first + o) ∧
      trail (node bs d) (ppb bs) (h + 1) o (ptrAt iBlock slot) =
        pointerBlocks iBlock bs d (min bound first + o) := by
    intro o ho
    have hfull : min bound first = first := by omega
    rw [hfull, mapped_eq hbs (by omega), pointerBlocks, ht.tier o (by omega)]
    dsimp only
    rw [Nat.add_sub_cancel_left]
    exact ⟨rfl, rfl⟩
  have hcount : min bound (first + ppb bs ^ (h + 1)) = min bound first + min st.remaining
      (ppb bs ^ (h + 1)) := by
    omega
  obtain ⟨r, hexec, hgathers⟩ := @exec_freeTier bs d hbs iBlock slot h st
  refine ⟨r, hexec, ?_⟩
  cases r with
  | error e =>
    obtain ⟨o, ho, e', he'⟩ := hgathers
    exact ⟨min bound first + o, by omega, by omega, e', (hplace o ho).1 ▸ he'⟩
  | ok st' =>
    dsimp only
    rw [hcount]
    have hfrees : Frees _ _ _ st st' := hgathers
    exact hst.trans (hfrees.congr (fun o ho => (hplace o ho).1) (fun o ho => (hplace o ho).2))

theorem direct_place (hbs : BlockSize bs) {i : Nat} (hi : i < directCount) :
    mapped iBlock bs d i = .ok (if ptrAt iBlock i = 0 then none else some (ptrAt iBlock i)) ∧
      pointerBlocks iBlock bs d i = .ok [] := by
  have htier : tierOf bs i = ⟨0, i, i⟩ := by rw [tierOf, if_pos hi]
  have haddressable : i < addressable bs := by
    unfold addressable
    omega
  rw [mapped_eq hbs haddressable, pointerBlocks, htier]
  exact ⟨rfl, rfl⟩

theorem gathered_direct (hbs : BlockSize bs) : Gathered iBlock bs bound d (min bound directCount)
    ⟨bound - min bound directCount, dataPtrs iBlock (min bound directCount), []⟩ where
  remaining := rfl
  data := fun x => by
    dsimp only
    rw [mem_dataPtrs]
    constructor
    · rintro ⟨o, ho, hptr⟩
      exact .inr ⟨o, ho, by rw [(direct_place hbs (by omega)).1, hptr]⟩
    · rintro (hx | ⟨o, ho, hlook⟩)
      · cases hx
      · rw [(direct_place hbs (by omega)).1] at hlook
        exact ⟨o, ho, Except.ok.inj hlook⟩
  indirect := fun x => by
    refine ⟨.inl, ?_⟩
    rintro (hx | ⟨o, ho, t, hway, hx⟩)
    · exact hx
    · rw [(direct_place hbs (by omega)).2] at hway
      rw [← Except.ok.inj hway] at hx
      cases hx
  reads := fun o ho => ⟨_, (direct_place hbs (by omega)).1⟩

theorem exec_lookup_beyond (hbs : BlockSize bs) {i : Nat} (hi : addressable bs ≤ i) :
    ∃ e, (lookup iBlock bs i).exec d = (.error e, d) := by
  have hok : ¬ (bs < 1024 ∨ ¬ bs.isPowerOfTwo) := by
    have hlow := hbs.low
    rintro (hlt | hnot)
    · omega
    · exact hnot hbs.power
  have htwo : ppb bs * ppb bs = ppb bs ^ 2 := (Nat.pow_two _).symm
  have hthree : ppb bs ^ 2 * ppb bs = ppb bs ^ 3 := (Nat.pow_succ _ _).symm
  unfold addressable at hi
  unfold lookup
  dsimp only
  rw [if_neg hok, htwo, hthree, if_neg (by omega), if_neg (by omega), if_neg (by omega),
    if_neg (by omega)]
  exact ⟨_, rfl⟩

theorem walk_some {p h o b x : Nat} (hb : b < 2 ^ 32)
    (hwalk : walk (node bs d) p h o b = .ok (some x)) :
    0 < x ∧ x < 2 ^ 32 := by
  induction h generalizing o b with
  | zero =>
    rw [walk] at hwalk
    split at hwalk
    · cases hwalk
    · rename_i hne
      obtain rfl := Option.some.inj (Except.ok.inj hwalk)
      exact ⟨Nat.pos_of_ne_zero hne, hb⟩
  | succ h ih =>
    by_cases hne : b = 0
    · rw [hne, walk_hole] at hwalk
      cases hwalk
    · cases hnode : node bs d b with
      | error e =>
        rw [walk, if_neg hne, hnode] at hwalk
        cases hwalk
      | ok ptr =>
        rw [walk_succ hne hnode] at hwalk
        exact ih (node_lt hnode _) hwalk

structure FreesMap (iBlock : Bytes) (bs bound : Nat) (d : Disk) (freed : FreedBlocks) : Prop where
  data : ∀ x, x ∈ freed.dataRuns.flatMap FreeRun.blocks ↔
    ∃ i, i < bound ∧ (lookup iBlock bs i).exec d = (.ok (some x), d)
  indirect : ∀ x, x ∈ freed.indirectBlocks ↔
    ∃ i, i < bound ∧ i < addressable bs ∧ ∃ t, pointerBlocks iBlock bs d i = .ok t ∧ x ∈ t
  once : (freed.dataRuns.flatMap FreeRun.blocks).Nodup ∧ freed.indirectBlocks.Nodup
  runs : Separated freed.dataRuns
  lengths : ∀ r ∈ freed.dataRuns, r.len < 2 ^ 32

theorem exec_collectForFree (hbs : BlockSize bs) :
    ∃ r, (collectForFree iBlock bs bound).exec d = (r, d) ∧
      match r with
      | .ok freed => FreesMap iBlock bs bound d freed ∧
          ∀ i, i < bound → i < addressable bs → ∃ v, (lookup iBlock bs i).exec d = (.ok v, d)
      | .error _ => ∃ i, i < bound ∧ i < addressable bs ∧ ∃ e, (lookup iBlock bs i).exec d =
          (.error e, d) := by
  have hok : ¬ (¬ bs.isPowerOfTwo ∨ bs < 1024) := by
    have hlow := hbs.low
    rintro (hnot | hlt)
    · exact hnot hbs.power
    · omega
  have hfail : ∀ e : Error, (∃ i, i < bound ∧ i < addressable bs ∧ ∃ e,
    mapped iBlock bs d i = .error e) →
      ∃ i, i < bound ∧ i < addressable bs ∧ ∃ e, (lookup iBlock bs i).exec d = (.error e, d) := by
    rintro - ⟨i, hi, haddr, e, he⟩
    exact ⟨i, hi, haddr, e, (exec_lookup_iff hbs haddr _).mpr he⟩
  rw [collectForFree, if_neg hok]
  dsimp only
  obtain ⟨r₁, hexec₁, h₁⟩ := exec_tier hbs isTier_single (@gathered_direct iBlock bs bound d hbs)
  cases r₁ with
  | error e => exact ⟨.error e, Io.exec_bind_error _ _ _ _ _ hexec₁, hfail e h₁⟩
  | ok st₁ =>
    rw [Io.exec_bind_ok _ _ _ _ _ hexec₁]
    rw [Nat.zero_add, Nat.pow_one] at h₁
    obtain ⟨r₂, hexec₂, h₂⟩ := exec_tier hbs isTier_double h₁
    cases r₂ with
    | error e => exact ⟨.error e, Io.exec_bind_error _ _ _ _ _ hexec₂, hfail e h₂⟩
    | ok st₂ =>
      rw [Io.exec_bind_ok _ _ _ _ _ hexec₂]
      obtain ⟨r₃, hexec₃, h₃⟩ := exec_tier hbs isTier_triple h₂
      cases r₃ with
      | error e => exact ⟨.error e, Io.exec_bind_error _ _ _ _ _ hexec₃, hfail e h₃⟩
      | ok st₃ =>
        rw [Io.exec_bind_ok _ _ _ _ _ hexec₃]
        have hgathered : Gathered iBlock bs bound d (min bound (addressable bs)) st₃ := h₃
        obtain ⟨hsep, hblocks⟩ := coalesceRuns_spec (sortDedup_pairwise st₃.dataBlocks)
        have hdata : ∀ x, x ∈ st₃.dataBlocks ↔
            ∃ i, i < bound ∧ (lookup iBlock bs i).exec d = (.ok (some x), d) := by
          intro x
          rw [hgathered.data]
          constructor
          · rintro (hx | ⟨i, hi, hmapped⟩)
            · cases hx
            · exact ⟨i, by omega, (exec_lookup_iff hbs (by omega) _).mpr hmapped⟩
          · rintro ⟨i, hi, hlookup⟩
            obtain haddr | hbeyond := Nat.lt_or_ge i (addressable bs)
            · exact .inr ⟨i, by omega, (exec_lookup_iff hbs haddr _).mp hlookup⟩
            · obtain ⟨e, he⟩ := @exec_lookup_beyond iBlock bs d hbs i hbeyond
              rw [he] at hlookup
              cases hlookup
        have hblock : ∀ x ∈ sortDedup st₃.dataBlocks, 0 < x ∧ x < 2 ^ 32 := by
          intro x hx
          obtain hx | ⟨i, hi, hmapped⟩ := (hgathered.data x).mp (mem_sortDedup.mp hx)
          · cases hx
          · rw [mapped_eq hbs (by omega)] at hmapped
            exact walk_some (ptrAt_lt _ _) hmapped
        refine ⟨_, rfl, ⟨fun x => ?_, fun x => ?_, ?_, hsep, fun r hr => ?_⟩, fun i hi haddr => ?_⟩
        · rw [hblocks, mem_sortDedup, hdata]
        · dsimp only
          rw [mem_sortDedup, hgathered.indirect]
          constructor
          · rintro (hx | ⟨i, hi, hway⟩)
            · cases hx
            · exact ⟨i, by omega, by omega, hway⟩
          · rintro ⟨i, hi, haddr, hway⟩
            exact .inr ⟨i, by omega, hway⟩
        · dsimp only
          rw [hblocks]
          exact ⟨(sortDedup_pairwise _).imp Nat.ne_of_lt, (sortDedup_pairwise _).imp Nat.ne_of_lt⟩
        · have hpos := hsep.nonempty r hr
          have hmem : ∀ x ∈ r.blocks, 0 < x ∧ x < 2 ^ 32 := by
            intro x hx
            refine hblock x ?_
            rw [← hblocks]
            exact List.mem_flatMap.mpr ⟨r, hr, hx⟩
          have hfirst := hmem r.start (List.mem_range'_1.mpr ⟨Nat.le_refl _, by omega⟩)
          have hlast := hmem (r.start + (r.len - 1)) (List.mem_range'_1.mpr ⟨by omega, by omega⟩)
          omega
        · obtain ⟨v, hv⟩ := hgathered.reads i (by omega)
          exact ⟨v, (exec_lookup_iff hbs haddr _).mpr hv⟩

/-- A map's blocks below a bound are freed, all of them and nothing else, when they can be read. -/
theorem collect_for_free (hbs : BlockSize bs) (iBlock : Bytes) (bound : Nat) (d : Disk) :
    ((∃ freed, (collectForFree iBlock bs bound).exec d = (.ok freed, d)) ↔
      ∀ i, i < bound → i < addressable bs → ∃ v, (lookup iBlock bs i).exec d = (.ok v, d)) ∧
    ∀ freed, (collectForFree iBlock bs bound).exec d = (.ok freed, d) →
    FreesMap iBlock bs bound d freed := by
  obtain ⟨r, hexec, hr⟩ := @exec_collectForFree iBlock bs bound d hbs
  rw [hexec]
  cases r with
  | error e =>
    obtain ⟨i, hi, haddr, e', he'⟩ := hr
    refine ⟨⟨?_, fun hall => ?_⟩, ?_⟩
    · rintro ⟨freed, heq⟩
      cases heq
    · obtain ⟨v, hv⟩ := hall i hi haddr
      rw [he'] at hv
      cases hv
    · intro freed heq
      cases heq
  | ok freed =>
    refine ⟨⟨fun _ => hr.2, fun _ => ⟨freed, rfl⟩⟩, fun freed' heq => ?_⟩
    rw [← Except.ok.inj (Prod.mk.inj heq).1]
    exact hr.1

end Map

/-- A map with a hole behind its first block, one pointer block, and a pointer block above
another. -/
def tieredMap : Bytes :=
  writeU32Le (writeU32Le (writeU32Le (writeU32Le (List.replicate 60 0) 0 7) 2 9) 12 20) 13 21

def tieredDisk : Disk where
  size := 32 * 1024
  img p :=
    if p = 20 * 1024 then 10
    else if p = 20 * 1024 + 8 then 30
    else if p = 21 * 1024 then 22
    else if p = 22 * 1024 + 4 then 31
    else 0

def tieredFreed : FreedBlocks := ⟨[⟨7, 1⟩, ⟨9, 2⟩, ⟨30, 2⟩], [20, 21, 22]⟩

theorem exec_tieredMap : (collectForFree tieredMap 1024 270).exec tieredDisk =
    (.ok tieredFreed, tieredDisk) := by
  obtain ⟨r, hexec, -⟩ := @exec_collectForFree tieredMap 1024 270 tieredDisk blockSize_1024
  have hr : ((collectForFree tieredMap 1024 270).exec tieredDisk).1 =
    .ok tieredFreed := by decide +kernel
  rw [hexec] at hr ⊢
  rw [← hr]

/-- The hole frees nothing, and the block under both pointer blocks is freed with them. -/
theorem collect_for_free_tiers : FreesMap tieredMap 1024 270 tieredDisk tieredFreed ∧
    (lookup tieredMap 1024 1).exec tieredDisk = (.ok none, tieredDisk) ∧
    ∀ i, i < 270 → i < addressable 1024 → ∃ v, (lookup tieredMap 1024 i).exec tieredDisk =
      (.ok v, tieredDisk) := by
  obtain ⟨hok, hfrees⟩ := collect_for_free blockSize_1024 tieredMap 270 tieredDisk
  refine ⟨hfrees tieredFreed exec_tieredMap, ?_, hok.mp ⟨tieredFreed, exec_tieredMap⟩⟩
  exact (exec_lookup_iff blockSize_1024 (by decide) _).mpr
    (direct_place blockSize_1024 (by decide)).1

end FsExt4.Indirect
