import FsExt4.Indirect
import FsExt4.Lib.PointerTree

namespace FsExt4.Indirect

open Lib PointerTree

theorem ptrAt_lt (buf : Bytes) (i : Nat) : ptrAt buf i < 2 ^ 32 := UInt32.toNat_lt _

def node (bs : Nat) (d : Disk) (b : Nat) : Result (Nat → Nat) :=
  ((readAt (b * bs) bs).exec d).1.map ptrAt

def addressable (bs : Nat) : Nat := directCount + ppb bs + ppb bs ^ 2 + ppb bs ^ 3

structure BlockSize (bs : Nat) : Prop where
  power : bs.isPowerOfTwo
  low : 1024 ≤ bs
  high : bs ≤ 65536

theorem BlockSize.ppb_pos {bs : Nat} (h : BlockSize bs) : 0 < ppb bs := by
  have hlow := h.low
  unfold ppb
  omega

section Follow

variable {bs : Nat} {d : Disk}

theorem exec_readAt_same (off len : Nat) : ((readAt off len : DevIo Bytes).exec d).2 = d := by
  by_cases h : off + len ≤ d.size
  · rw [exec_readAt d off len h]
  · rw [exec_readAt_past d off len h]

theorem exec_getBlock (hbs : bs ≤ 65536) {b : Nat} (hb : b < 2 ^ 32) :
    (getBlock bs b).exec d = (readAt (b * bs) bs).exec d := by
  have hmul : b * bs < 2 ^ 32 * 65537 := by
    refine Nat.lt_of_le_of_lt (Nat.mul_le_mul_left b hbs) ?_
    omega
  rw [getBlock, if_neg (by omega)]

theorem exec_follow_cons (hbs : bs ≤ 65536) {b : Nat} (hb : b < 2 ^ 32) (hne : b ≠ 0) (i : Nat)
    (rest : List Nat) : (follow bs (i :: rest) b).exec d =
      match node bs d b with
      | .ok ptr => (follow bs rest (ptr i)).exec d
      | .error e => (.error e, d) := by
  have hsame := @exec_readAt_same d (b * bs) bs
  rw [follow, if_neg hne, Io.exec_bind, exec_getBlock hbs hb, node]
  generalize (readAt (b * bs) bs).exec d = out at hsame ⊢
  obtain ⟨r, d'⟩ := out
  obtain rfl : d' = d := hsame
  cases r with
  | ok buf => rfl
  | error e => rfl

def digits (p : Nat) : Nat → Nat → List Nat
  | 0, _ => []
  | h + 1, o => o / p ^ h :: digits p h (o % p ^ h)

theorem node_lt {b : Nat} {ptr : Nat → Nat} (h : node bs d b = .ok ptr) (i : Nat) : ptr i <
    2 ^ 32 := by
  rw [node] at h
  cases hread : ((readAt (b * bs) bs).exec d).1 with
  | error e =>
    rw [hread] at h
    cases h
  | ok buf =>
    rw [hread] at h
    rw [← Except.ok.inj h]
    exact ptrAt_lt buf i

theorem exec_follow (hbs : bs ≤ 65536) {b : Nat} (hb : b < 2 ^ 32) (p h o : Nat) :
    (follow bs (digits p h o) b).exec d = (walk (node bs d) p h o b, d) := by
  induction h generalizing o b with
  | zero => rfl
  | succ h ih =>
    by_cases hne : b = 0
    · subst hne
      rw [walk_hole, digits, follow, if_pos rfl]
      rfl
    · rw [digits, exec_follow_cons hbs hb hne, walk, if_neg hne]
      cases hnode : node bs d b with
      | error e => rfl
      | ok ptr => exact ih (node_lt hnode _) _

end Follow

/-- A tier of the map: how many pointer blocks are on its ways, its first logical block, and the
slot of its pointer; the direct pointers are twelve tiers of their own. -/
structure Tier where
  height : Nat
  first : Nat
  slot : Nat

def tierOf (bs logical : Nat) : Tier :=
  let p := ppb bs
  if logical < directCount then ⟨0, logical, logical⟩
  else if logical < directCount + p then ⟨1, directCount, 12⟩
  else if logical < directCount + p + p ^ 2 then ⟨2, directCount + p, 13⟩
  else ⟨3, directCount + p + p ^ 2, 14⟩

def pointerBlocks (iBlock : Bytes) (bs : Nat) (d : Disk) (logical : Nat) : Result (List Nat) :=
  let t := tierOf bs logical
  trail (node bs d) (ppb bs) t.height (logical - t.first) (ptrAt iBlock t.slot)

section Lookup

variable {iBlock : Bytes} {bs logical : Nat} {d : Disk} (hbs : BlockSize bs)

include hbs

theorem exec_lookup (h : logical < addressable bs) :
    (lookup iBlock bs logical).exec d =
      (walk (node bs d) (ppb bs) (tierOf bs logical).height (logical - (tierOf bs logical).first)
        (ptrAt iBlock (tierOf bs logical).slot), d) := by
  have hok : ¬ (bs < 1024 ∨ ¬ bs.isPowerOfTwo) := by
    have hlow := hbs.low
    have hpower := hbs.power
    rintro (hlt | hnot)
    · omega
    · exact hnot hpower
  have htwo : ppb bs * ppb bs = ppb bs ^ 2 := (Nat.pow_two _).symm
  have hthree : ppb bs ^ 2 * ppb bs = ppb bs ^ 3 := (Nat.pow_succ _ _).symm
  unfold addressable at h
  unfold lookup tierOf
  dsimp only
  rw [if_neg hok, htwo, hthree]
  by_cases hdirect : logical < directCount
  · rw [if_pos hdirect, if_pos hdirect]
    rfl
  · rw [if_neg hdirect, if_neg hdirect]
    by_cases hsingle : logical < directCount + ppb bs
    · rw [if_pos hsingle, if_pos hsingle, ← exec_follow hbs.high (ptrAt_lt iBlock 12)]
      simp only [digits, Nat.pow_zero, Nat.div_one]
    · rw [if_neg hsingle, if_neg hsingle]
      by_cases hdouble : logical < directCount + ppb bs + ppb bs ^ 2
      · rw [if_pos hdouble, if_pos hdouble, ← exec_follow hbs.high (ptrAt_lt iBlock 13)]
        simp only [digits, Nat.pow_zero, Nat.div_one, Nat.pow_one]
      · rw [if_neg hdouble, if_neg hdouble, if_pos h, ← exec_follow hbs.high (ptrAt_lt iBlock 14)]
        simp only [digits, Nat.pow_zero, Nat.div_one, Nat.pow_one]

end Lookup

abbrev IndirectCache := Option (Nat × Bytes)

namespace IndirectCache

def new : IndirectCache := none

/-- The block from the cache, or read through. A read that fails leaves the cache as it was. -/
def get (cache : IndirectCache) (d : Disk) (blockNo bs : Nat) : Result Bytes × IndirectCache :=
  let readThrough := match ((getBlock bs blockNo).exec d).1 with
    | .ok buf => (.ok buf, some (blockNo, buf))
    | .error e => (.error e, cache)
  match cache with
  | some (b, buf) => if b = blockNo then (.ok buf, cache) else readThrough
  | none => readThrough

end IndirectCache

def followCached (d : Disk) (bs : Nat) : List Nat → Nat → IndirectCache →
    Result (Option Nat) × IndirectCache
  | [], phys, cache => (.ok (present phys), cache)
  | i :: rest, blockNo, cache =>
    if blockNo = 0 then (.ok none, cache)
    else match cache.get d blockNo bs with
      | (.ok buf, cache) => followCached d bs rest (ptrAt buf i) cache
      | (.error e, cache) => (.error e, cache)

def lookupCached (iBlock : Bytes) (d : Disk) (bs logical : Nat) (cache : IndirectCache) :
    Result (Option Nat) × IndirectCache :=
  let p := ppb bs
  let singleEnd := directCount + p
  let doubleEnd := singleEnd + p * p
  let tripleEnd := doubleEnd + p * p * p
  if bs < 1024 ∨ ¬ bs.isPowerOfTwo
    then (.error (.corrupt "indirect: block_size out of range"), cache)
  else if logical < directCount then followCached d bs [] (ptrAt iBlock logical) cache
  else if logical < singleEnd then followCached d bs [logical - directCount] (ptrAt iBlock 12) cache
  else if logical < doubleEnd then
    let off := logical - singleEnd
    followCached d bs [off / p, off % p] (ptrAt iBlock 13) cache
  else if logical < tripleEnd then
    let off := logical - doubleEnd
    followCached d bs [off / (p * p), off % (p * p) / p, off % (p * p) % p] (ptrAt iBlock 14) cache
  else (.error (.corrupt "indirect: logical block exceeds triple-indirect address space"), cache)

def cacheAfter (d : Disk) (bs : Nat) : List (Bytes × Nat) → IndirectCache
  | [] => .new
  | (iBlock, logical) :: earlier => (lookupCached iBlock d bs logical (cacheAfter d bs earlier)).2

section Cached

variable {d : Disk} {bs : Nat}

def Coherent (d : Disk) (bs : Nat) (cache : IndirectCache) : Prop :=
  ∀ b buf, cache = some (b, buf) → ((getBlock bs b).exec d).1 = .ok buf

theorem get_coherent {cache : IndirectCache} (h : Coherent d bs cache) (b : Nat) :
    (cache.get d b bs).1 = ((getBlock bs b).exec d).1 ∧ Coherent d bs (cache.get d b bs).2 := by
  have hthrough : ∀ out : Result Bytes × IndirectCache, out = (match ((getBlock bs b).exec d).1 with
      | .ok buf => (.ok buf, some (b, buf))
      | .error e => (.error e, cache)) → out.1 = ((getBlock bs b).exec d).1 ∧
          Coherent d bs out.2 := by
    rintro out rfl
    cases hread : ((getBlock bs b).exec d).1 with
    | error e => exact ⟨rfl, h⟩
    | ok buf =>
      refine ⟨rfl, fun c buf' hc => ?_⟩
      obtain ⟨rfl, rfl⟩ := Prod.mk.inj (Option.some.inj hc)
      exact hread
  cases hcache : cache with
  | none =>
    subst hcache
    exact hthrough _ rfl
  | some entry =>
    obtain ⟨c, buf⟩ := entry
    by_cases hc : c = b
    · subst hc
      have hget : IndirectCache.get (some (c, buf)) d c bs = (.ok buf, some (c, buf)) := if_pos rfl
      rw [hget]
      subst hcache
      exact ⟨(h c buf rfl).symm, h⟩
    · subst hcache
      exact hthrough _ (if_neg hc)

theorem exec_getBlock_same (b : Nat) : ((getBlock bs b).exec d).2 = d := by
  unfold getBlock
  split
  · rfl
  · exact exec_readAt_same _ _

theorem followCached_eq (path : List Nat) (b : Nat) {cache : IndirectCache}
    (h : Coherent d bs cache) : (followCached d bs path b cache).1 = ((follow bs path b).exec d).1 ∧
      Coherent d bs (followCached d bs path b cache).2 := by
  induction path generalizing b cache with
  | nil => exact ⟨rfl, h⟩
  | cons i rest ih =>
    rw [followCached, follow]
    by_cases hb : b = 0
    · rw [if_pos hb, if_pos hb]
      exact ⟨rfl, h⟩
    · rw [if_neg hb, if_neg hb, Io.exec_bind]
      obtain ⟨hget, hcoherent⟩ := get_coherent h b
      have hsame := @exec_getBlock_same d bs b
      generalize cache.get d b bs = got at hget hcoherent ⊢
      generalize (getBlock bs b).exec d = out at hget hsame ⊢
      obtain ⟨r, cache'⟩ := got
      obtain ⟨r', d'⟩ := out
      obtain rfl : d' = d := hsame
      obtain rfl : r = r' := hget
      cases r with
      | ok buf => exact ih (ptrAt buf i) hcoherent
      | error e => exact ⟨rfl, hcoherent⟩

theorem lookupCached_eq (iBlock : Bytes) (logical : Nat) {cache : IndirectCache}
    (h : Coherent d bs cache) :
    (lookupCached iBlock d bs logical cache).1 = ((lookup iBlock bs logical).exec d).1 ∧
      Coherent d bs (lookupCached iBlock d bs logical cache).2 := by
  unfold lookupCached lookup
  dsimp only
  split
  · exact ⟨rfl, h⟩
  split
  · exact followCached_eq _ _ h
  split
  · exact followCached_eq _ _ h
  split
  · exact followCached_eq _ _ h
  split
  · exact followCached_eq _ _ h
  · exact ⟨rfl, h⟩

theorem lookupCached_after (earlier : List (Bytes × Nat)) (iBlock : Bytes) (logical : Nat) :
    (lookupCached iBlock d bs logical (cacheAfter d bs earlier)).1 =
      ((lookup iBlock bs logical).exec d).1 := by
  have hcoherent : Coherent d bs (cacheAfter d bs earlier) := by
    induction earlier with
    | nil => exact fun _ _ h => nomatch h
    | cons e earlier ih => exact (lookupCached_eq e.1 e.2 ih).2
  exact (lookupCached_eq iBlock logical hcoherent).1

end Cached

end FsExt4.Indirect
