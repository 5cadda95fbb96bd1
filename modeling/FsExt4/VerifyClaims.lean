import FsExt4.Verify
import FsExt4.JournalReads

namespace FsExt4.Verify

open Lib

/-- A block claimed: as data, which is checked, or as a pointer block, which is only noted. -/
structure Claim where
  block : Nat
  data : Bool

structure Fits (total : Nat) (w : Walk) : Prop where
  size : w.claimed.total = total
  bits : total ≤ w.claimed.bits.length * 8

/-- From `w` to `w'` the walk has made these claims, and nothing else that is an error if `good`. -/
def Runs (total : Nat) (good : Prop) (cs : List Claim) (w w' : Walk) : Prop :=
  Fits total w → Fits total w' ∧
    (∀ b < total, w'.claimed.get b = true ↔ w.claimed.get b = true ∨ ∃ c ∈ cs, c.block = b) ∧
    (w'.report.errors = [] ↔ w.report.errors = [] ∧ good ∧
      (∀ c ∈ cs, c.data = true → c.block < total ∧ w.claimed.get c.block = false) ∧
      cs.Pairwise (fun a b => b.data = true → a.block ≠ b.block))

section Runs

variable {total : Nat} {good good₁ good₂ : Prop} {cs cs₁ cs₂ : List Claim} {w w₁ w₂ : Walk}

theorem Runs.refl (w : Walk) : Runs total True [] w w := by
  intro hfits
  refine ⟨hfits, fun b _ => ?_, ?_⟩
  · exact ⟨.inl, fun h => h.resolve_right nofun⟩
  · exact ⟨fun h => ⟨h, trivial, nofun, .nil⟩, fun h => h.1⟩

theorem Runs.trans (h₁ : Runs total good₁ cs₁ w w₁) (h₂ : Runs total good₂ cs₂ w₁ w₂) :
    Runs total (good₁ ∧ good₂) (cs₁ ++ cs₂) w w₂ := by
  intro hfits
  obtain ⟨hfits₁, hget₁, herrors₁⟩ := h₁ hfits
  obtain ⟨hfits₂, hget₂, herrors₂⟩ := h₂ hfits₁
  -- a block unclaimed after the first part was so before it, and is none of that part's
  have hfree : ∀ b < total, w₁.claimed.get b = false ↔
      w.claimed.get b = false ∧ ∀ a ∈ cs₁, a.block ≠ b := by
    intro b hb
    rw [← Bool.not_eq_true, hget₁ b hb, not_or, Bool.not_eq_true, not_exists]
    refine and_congr_right fun _ => forall_congr' fun a => ?_
    rw [not_and]
  refine ⟨hfits₂, fun b hb => ?_, ?_⟩
  · rw [hget₂ b hb, hget₁ b hb, or_assoc]
    refine or_congr_right ?_
    constructor
    · rintro (⟨c, hc, rfl⟩ | ⟨c, hc, rfl⟩)
      · exact ⟨c, List.mem_append_left _ hc, rfl⟩
      · exact ⟨c, List.mem_append_right _ hc, rfl⟩
    · rintro ⟨c, hc, rfl⟩
      obtain hc | hc := List.mem_append.mp hc
      · exact .inl ⟨c, hc, rfl⟩
      · exact .inr ⟨c, hc, rfl⟩
  · rw [herrors₂, herrors₁, List.pairwise_append, List.forall_mem_append]
    constructor
    · rintro ⟨⟨hw, hg₁, hin₁, hp₁⟩, hg₂, hin₂, hp₂⟩
      refine ⟨hw, ⟨hg₁, hg₂⟩, ⟨hin₁, fun c hc hd => ?_⟩, hp₁, hp₂, fun a ha c hc hd => ?_⟩
      · exact ⟨(hin₂ c hc hd).1, ((hfree _ (hin₂ c hc hd).1).mp (hin₂ c hc hd).2).1⟩
      · exact ((hfree _ (hin₂ c hc hd).1).mp (hin₂ c hc hd).2).2 a ha
    · rintro ⟨hw, ⟨hg₁, hg₂⟩, ⟨hin₁, hin₂⟩, hp₁, hp₂, hcross⟩
      refine ⟨⟨hw, hg₁, hin₁, hp₁⟩, hg₂, fun c hc hd => ?_, hp₂⟩
      have hc' := hin₂ c hc hd
      exact ⟨hc'.1, (hfree _ hc'.1).mpr ⟨hc'.2, fun a ha => hcross a ha c hc hd⟩⟩

theorem Runs.congr (h : Runs total good₁ cs w w₁) (hgood : good₁ ↔ good₂) :
    Runs total good₂ cs w w₁ := by
  rwa [propext hgood] at h

theorem runs_error (w : Walk) (message : String) : Runs total False [] w (w.error message) := by
  intro hfits
  refine ⟨⟨hfits.size, hfits.bits⟩, fun b _ => ?_, ?_⟩
  · exact ⟨.inl, fun h => h.resolve_right nofun⟩
  · refine ⟨fun h => ?_, fun h => absurd h.2.1 id⟩
    exact absurd (List.append_eq_nil_iff.mp h).2 (List.cons_ne_nil _ _)

theorem get_set {c : ClaimedBitmap} {block b : Nat} (hblock : block < c.bits.length * 8) :
    (c.set block).2.get b = true ↔ c.get b = true ∨ block = b := by
  have hlen : block / 8 < c.bits.length := by omega
  change bit (setBit c.bits block) b = true ↔ _
  rw [bit_setBit, Bool.or_eq_true, decide_eq_true_iff, and_iff_left hlen]
  rfl

theorem runs_mark (w : Walk) (block : Nat) : Runs total True [⟨block, false⟩] w (w.mark block) := by
  intro hfits
  have hbits := hfits.bits
  have htotal := hfits.size
  unfold Walk.mark ClaimedBitmap.mark
  by_cases hlt : block < w.claimed.total
  · rw [if_pos hlt]
    refine ⟨⟨htotal, ?_⟩, fun b _ => ?_, ?_⟩
    · change total ≤ (setBit w.claimed.bits block).length * 8
      rwa [length_setBit]
    · rw [get_set (by omega)]
      simp
    · exact ⟨fun h => ⟨h, trivial, by simp, List.pairwise_singleton _ _⟩, fun h => h.1⟩
  · rw [if_neg hlt]
    refine ⟨hfits, fun b hb => ?_, ?_⟩
    · refine ⟨.inl, fun h => h.resolve_right ?_⟩
      rintro ⟨c, hc, rfl⟩
      rw [List.mem_singleton.mp hc] at hb
      dsimp only at hb
      omega
    · exact ⟨fun h => ⟨h, trivial, by simp, List.pairwise_singleton _ _⟩, fun h => h.1⟩

theorem errors_check {r : VerifyReport} {fails : Bool} {message : String} :
    (r.check fails message).errors = [] ↔ r.errors = [] ∧ fails = false := by
  unfold VerifyReport.check VerifyReport.error
  cases fails <;> simp

theorem runs_claim (w : Walk) (phys : Nat) (outOfRange doubleClaimed : String) :
    Runs total True [⟨phys, true⟩] w (w.claim phys outOfRange doubleClaimed) := by
  intro hfits
  have hbits := hfits.bits
  have htotal := hfits.size
  unfold Walk.claim
  by_cases hout : w.claimed.total ≤ phys
  · rw [if_pos hout]
    obtain ⟨hfits', hget, herrors⟩ := runs_error w outOfRange hfits
    refine ⟨hfits', fun b hb => ?_, ?_⟩
    · rw [hget b hb]
      refine or_congr_right ⟨nofun, ?_⟩
      rintro ⟨c, hc, rfl⟩
      rw [List.mem_singleton.mp hc] at hb
      dsimp only at hb
      omega
    · rw [herrors]
      refine ⟨fun h => absurd h.2.1 id, fun h => ?_⟩
      have hlt := (h.2.2.1 _ List.mem_cons_self rfl).1
      dsimp only at hlt
      omega
  · rw [if_neg hout]
    refine ⟨⟨htotal, ?_⟩, fun b _ => ?_, ?_⟩
    · change total ≤ (setBit w.claimed.bits phys).length * 8
      rwa [length_setBit]
    · change (w.claimed.set phys).2.get b = true ↔ _
      rw [get_set (by omega)]
      simp
    · change (w.report.check (w.claimed.get phys) doubleClaimed).errors = [] ↔ _
      rw [errors_check]
      refine and_congr_right fun _ => ⟨fun h => ⟨trivial, ?_, List.pairwise_singleton _ _⟩,
        fun h => ?_⟩
      · rw [List.forall_mem_singleton]
        exact fun _ => ⟨by dsimp only; omega, h⟩
      · exact (h.2.1 _ List.mem_cons_self rfl).2

theorem foldl_runs {ι : Type} {f : Walk → ι → Walk} {claims : ι → List Claim}
    (hstep : ∀ w x, Runs total True (claims x) w (f w x)) (l : List ι) (w : Walk) :
    Runs total True (l.flatMap claims) w (l.foldl f w) := by
  induction l generalizing w with
  | nil => exact Runs.refl w
  | cons x l ih =>
    rw [List.flatMap_cons, List.foldl_cons]
    exact ((hstep w x).trans (ih (f w x))).congr (and_self_iff)

theorem foldlM_runs {ι : Type} {f : Walk → ι → DevIo Walk} {good : ι → Prop}
    {claims : ι → List Claim} {d d' : Disk} {l : List ι} {w w' : Walk}
    (hstep : ∀ x ∈ l, ∀ w w' d', (f w x).exec d = (.ok w', d') → d' = d ∧ Runs total (good x)
      (claims x) w w')
    (h : (l.foldlM f w).exec d = (.ok w', d')) :
    d' = d ∧ Runs total (∀ x ∈ l, good x) (l.flatMap claims) w w' := by
  induction l generalizing w with
  | nil =>
    cases h
    exact ⟨rfl, (Runs.refl _).congr ⟨fun _ _ => nofun, fun _ => trivial⟩⟩
  | cons x l ih =>
    rw [List.foldlM_cons] at h
    obtain ⟨w₁, d₁, hx, hrest⟩ := Io.exec_bind_eq_ok _ _ _ _ _ h
    obtain ⟨rfl, hfirst⟩ := hstep x List.mem_cons_self _ _ _ hx
    obtain ⟨hd, hlater⟩ := ih (fun y hy => hstep y (List.mem_cons_of_mem _ hy)) hrest
    refine ⟨hd, ?_⟩
    rw [List.flatMap_cons]
    exact (hfirst.trans hlater).congr List.forall_mem_cons.symm

end Runs

section OnDisk

variable (v : Volume) (d : Disk)

def inodeOn (ino : UInt32) : Option Inode :=
  match ((v.fs.readInodeRaw ino).exec d).1 with
  | .error _ => none
  | .ok raw => (Inode.parse raw).toOption

def mappedBlock (inode : Inode) (logical : Nat) : Option Nat :=
  match ((Indirect.mapLogicalAny inode.block inode.flags v.fs.sb.blockSize logical).exec d).1 with
  | .error _ => none
  | .ok phys => phys

/-- The pointer blocks noted for a slot: its own, and those a double or triple one points at. -/
def slotBlocks (inode : Inode) (slot : Nat) : List Nat :=
  let bs := v.fs.sb.blockSize
  let total := v.fs.sb.blocksCount
  let p := Indirect.ptrAt inode.block slot
  if p ≠ 0 ∧ p < total then
    p :: match ((readAt (p * bs) bs).exec d).1 with
      | .error _ => []
      | .ok buf =>
        ((List.range (bs / 4)).map (Indirect.ptrAt buf)).filter
          (fun inner => decide (inner ≠ 0 ∧ inner < total ∧ 13 ≤ slot))
  else []

/-- The data blocks an inode maps and the pointer blocks noted with them; none if its extent tree
cannot be walked. -/
def treeClaims (inode : Inode) : Option (List Claim) :=
  let bs := v.fs.sb.blockSize
  if inode.flags &&& inodeFlagExtents != 0 then
    match ((Extent.collectAll inode.block bs).exec d).1 with
    | .error _ => none
    | .ok extents => some ((extents.flatMap extentBlocks).map (⟨·, true⟩))
  else
    some (((List.range (divCeil inode.size bs)).filterMap (mappedBlock v d inode)).map
      (⟨·, true⟩) ++ ([12, 13, 14].flatMap (slotBlocks v d inode)).map (⟨·, false⟩))

end OnDisk

section WalkInode

variable {debug : Error → String} {v : Volume} {d d' : Disk} {ino : UInt32} {inode : Inode}
  {w w' : Walk}

theorem runs_map_claim {f : Walk → Nat → Walk} (l : List Nat)
    (hstep : ∀ w b, Runs v.fs.sb.blocksCount True [⟨b, true⟩] w (f w b)) (w : Walk) :
    Runs v.fs.sb.blocksCount True (l.map (⟨·, true⟩)) w (l.foldl f w) := by
  have hruns := foldl_runs hstep l w
  rwa [← List.map_eq_flatMap] at hruns

theorem foldlM_filterMap_claims (l : List Nat)
    (h : (l.foldlM (fun w logical => do
      match ← Indirect.mapLogicalAny inode.block inode.flags v.fs.sb.blockSize logical with
      | none => return w
      | some phys => return claimMappedBlock ino w phys) w).exec d = (.ok w', d')) :
    d' = d ∧ Runs v.fs.sb.blocksCount True ((l.filterMap (mappedBlock v d inode)).map (⟨·, true⟩)) w
      w' := by
  have hstep : ∀ logical ∈ l, ∀ w w' d', (do
      match ← Indirect.mapLogicalAny inode.block inode.flags v.fs.sb.blockSize logical with
      | none => return w
      | some phys => return claimMappedBlock ino w phys : DevIo Walk).exec d = (.ok w', d') →
      d' = d ∧ Runs v.fs.sb.blocksCount True ((mappedBlock v d inode logical).toList.map
        (⟨·, true⟩)) w w' := by
    intro logical _ w w' d' hx
    obtain ⟨phys, d₁, hmap, hrest⟩ := Io.exec_bind_eq_ok _ _ _ _ _ hx
    have hsame := (mapLogicalAny_readsBlocks inode.block inode.flags v.fs.sb.blockSize
      logical).exec_snd d
    rw [hmap] at hsame
    obtain rfl : d₁ = d := hsame
    have hmapped : mappedBlock v d₁ inode logical = phys := by
      rw [mappedBlock, hmap]
    rw [hmapped]
    cases phys with
    | none =>
      cases hrest
      exact ⟨rfl, Runs.refl _⟩
    | some phys =>
      cases hrest
      exact ⟨rfl, runs_claim _ _ _ _⟩
  obtain ⟨hd, hruns⟩ := foldlM_runs hstep h
  refine ⟨hd, ?_⟩
  have hclaims : l.flatMap (fun logical => (mappedBlock v d inode logical).toList.map
    (⟨·, true⟩ : Nat → Claim)) = (l.filterMap (mappedBlock v d inode)).map (⟨·, true⟩) := by
    rw [List.filterMap_eq_flatMap_toList, List.map_flatMap]
  rw [hclaims] at hruns
  exact hruns.congr ⟨fun _ => trivial, fun _ _ _ => trivial⟩

theorem exec_attempt_bind {α β : Type} {x : DevIo α} {bs : Nat} (hx : x.ReadsBlocks bs)
    (f : Except Error α → DevIo β) (d : Disk) :
    (x.attempt >>= f).exec d = (f (x.exec d).1).exec d := by
  rw [Io.exec_bind_ok _ _ _ _ _ (Io.exec_attempt x d), hx.exec_snd]

theorem foldl_mark_filter {p : Nat → Bool} (l : List Nat) (w : Walk) :
    Runs v.fs.sb.blocksCount True ((l.filter p).map (⟨·, false⟩)) w
      (l.foldl (fun w b => if p b = true then w.mark b else w) w) := by
  rw [← List.foldl_filter]
  have hruns : Runs v.fs.sb.blocksCount True _ w _ := foldl_runs (fun w b => runs_mark w b)
    (l.filter p) w
  rwa [← List.map_eq_flatMap] at hruns

theorem markSlot_runs {slot : Nat} (h : (markSlot v inode w slot).exec d = (.ok w', d')) :
    d' = d ∧ Runs v.fs.sb.blocksCount True ((slotBlocks v d inode slot).map (⟨·, false⟩)) w w' := by
  unfold markSlot at h
  dsimp only at h
  generalize hp : Indirect.ptrAt inode.block slot = p at h
  by_cases hin : p ≠ 0 ∧ p < w.claimed.total
  · rw [if_pos hin, exec_attempt_bind (readAt_readsBlocks _ _)] at h
    cases hread : ((readAt (p * v.fs.sb.blockSize) v.fs.sb.blockSize).exec d).1 with
    | error e =>
      rw [hread] at h
      cases h
      refine ⟨rfl, fun hfits => ?_⟩
      have hslot : slotBlocks v d inode slot = [p] := by
        unfold slotBlocks
        dsimp only
        rw [hp, hread, if_pos (by rw [← hfits.size]; exact hin)]
      rw [hslot]
      exact runs_mark w p hfits
    | ok buf =>
      rw [hread] at h
      cases h
      refine ⟨rfl, fun hfits => ?_⟩
      have hslot : slotBlocks v d inode slot = p ::
          ((List.range (v.fs.sb.blockSize / 4)).map (Indirect.ptrAt buf)).filter
            (fun inner => decide (inner ≠ 0 ∧ inner < w.claimed.total ∧ 13 ≤ slot)) := by
        unfold slotBlocks
        dsimp only
        rw [hp, hread, if_pos (by rw [← hfits.size]; exact hin), hfits.size]
      have hinner := foldl_mark_filter (v := v)
        (p := fun inner => decide (inner ≠ 0 ∧ inner < w.claimed.total ∧ 13 ≤ slot))
        ((List.range (v.fs.sb.blockSize / 4)).map (Indirect.ptrAt buf)) (w.mark p)
      rw [List.foldl_map] at hinner
      simp only [decide_eq_true_eq] at hinner
      rw [hslot, List.map_cons]
      exact (((runs_mark w p).trans hinner).congr and_self_iff) hfits
  · rw [if_neg hin] at h
    cases h
    refine ⟨rfl, fun hfits => ?_⟩
    have hslot : slotBlocks v d inode slot = [] := by
      unfold slotBlocks
      dsimp only
      rw [hp, if_neg (by rw [← hfits.size]; exact hin)]
    rw [hslot]
    exact Runs.refl _ hfits

end WalkInode

section Reads

theorem foldlM_readsBlocks {ι α : Type} {f : α → ι → DevIo α} {bs : Nat} (l : List ι)
    (hf : ∀ a x, (f a x).ReadsBlocks bs) (a : α) : (l.foldlM f a).ReadsBlocks bs := by
  induction l generalizing a with
  | nil => exact Io.ReadsBlocks.done _
  | cons x l ih =>
    rw [List.foldlM_cons]
    exact (hf a x).bind fun b => ih b

theorem extentWalk_readsBlocks (bs descents : Nat) (node : Bytes) (header : ExtentHeader)
    (found : List Extent × List Nat) : (Extent.walk bs descents node header found).ReadsBlocks
      bs := by
  induction descents generalizing node header found with
  | zero =>
    unfold Extent.walk
    split
    · exact (Io.ReadsBlocks.done _).bind fun out => Io.ReadsBlocks.done _
    · exact Io.ReadsBlocks.done _
  | succ descents ih =>
    unfold Extent.walk
    split
    · exact (Io.ReadsBlocks.done _).bind fun out => Io.ReadsBlocks.done _
    · refine foldlM_readsBlocks _ (fun found i => ?_) found
      refine (Io.ReadsBlocks.done _).bind fun idx => ?_
      refine Io.ReadsBlocks.bind ?_ fun buf => (Io.ReadsBlocks.done _).bind fun child =>
        ih buf child _
      unfold Extent.readChild
      split
      · exact Io.ReadsBlocks.done _
      · exact readAt_readsBlocks _ _

theorem collectAll_readsBlocks (root : Bytes) (bs : Nat) :
    (Extent.collectAll root bs).ReadsBlocks bs := by
  refine Io.ReadsBlocks.bind ?_ fun found => Io.ReadsBlocks.done _
  refine (Io.ReadsBlocks.done _).bind fun header => ?_
  split
  · exact Io.ReadsBlocks.done _
  · exact extentWalk_readsBlocks bs _ root header _

theorem readInodeRaw_readsBlocks (fs : Filesystem) (ino : UInt32) :
    (fs.readInodeRaw ino).ReadsBlocks fs.sb.blockSize := by
  refine (Io.ReadsBlocks.done _).bind fun r => ?_
  refine Io.ReadsBlocks.bind ?_ fun data => ?_
  · unfold Filesystem.readBlock
    split
    · exact Io.ReadsBlocks.done _
    · exact readAt_readsBlocks _ _
  · split <;> exact Io.ReadsBlocks.done _

end Reads

/-- The inodes the walk passes over: their data, if any, is in the inode. -/
def passedOver (inode : Inode) : Bool := inode.hasInlineData || inode.blocks == 0

/-- What the walk claims for an inode; none if the inode or its extent tree cannot be read. -/
def walkClaims (v : Volume) (d : Disk) (ino : UInt32) : Option (List Claim) := do
  let inode ← inodeOn v d ino
  if passedOver inode then return [] else treeClaims v d inode

section WalkAll

variable {debug : Error → String} {v : Volume} {d d' : Disk} {ino : UInt32} {inode : Inode}
  {w w' : Walk}

theorem walkInodeBlockTree_runs (h : (walkInodeBlockTree debug v ino inode w).exec d =
    (.ok w', d')) :
    d' = d ∧ Runs v.fs.sb.blocksCount ((treeClaims v d inode).isSome = true)
      ((treeClaims v d inode).getD []) w w' := by
  unfold walkInodeBlockTree at h
  dsimp only at h
  unfold treeClaims
  by_cases hext : (inode.flags &&& inodeFlagExtents != 0) = true
  · rw [if_pos hext, exec_attempt_bind (collectAll_readsBlocks _ _)] at h
    rw [if_pos hext]
    cases hwalk : ((Extent.collectAll inode.block v.fs.sb.blockSize).exec d).1 with
    | error e =>
      rw [hwalk] at h
      cases h
      exact ⟨rfl, (runs_error _ _).congr (by simp)⟩
    | ok extents =>
      rw [hwalk] at h
      cases h
      exact ⟨rfl, (runs_map_claim _ (fun w b => runs_claim w b _ _) w).congr (by simp)⟩
  · rw [if_neg hext] at h
    rw [if_neg hext]
    obtain ⟨w₁, d₁, hmap, hslots⟩ := Io.exec_bind_eq_ok _ _ _ _ _ h
    obtain ⟨rfl, hdata⟩ := foldlM_filterMap_claims _ hmap
    have hstep : ∀ slot ∈ [12, 13, 14], ∀ w w' d', (markSlot v inode w slot).exec d₁ =
      (.ok w', d') →
        d' = d₁ ∧ Runs v.fs.sb.blocksCount True
          ((slotBlocks v d₁ inode slot).map (⟨·, false⟩)) w w' :=
      fun slot _ w w' d' => markSlot_runs
    obtain ⟨hd, hmarks⟩ := foldlM_runs hstep hslots
    refine ⟨hd, ?_⟩
    have hruns := hdata.trans hmarks
    rw [← List.map_flatMap] at hruns
    exact hruns.congr ⟨fun _ => rfl, fun _ => ⟨trivial, fun _ _ => trivial⟩⟩

theorem walkInode_runs (h : (walkInode debug v ino w).exec d = (.ok w', d')) :
    d' = d ∧ Runs v.fs.sb.blocksCount ((walkClaims v d ino).isSome = true)
      ((walkClaims v d ino).getD []) w w' := by
  unfold walkInode at h
  -- the count of inodes walked is no claim
  have hcount : Runs v.fs.sb.blocksCount True [] w
      { w with report := { w.report with inodesWalked := w.report.inodesWalked + 1 } } := by
    intro hfits
    obtain ⟨-, hget, herrors⟩ := Runs.refl w hfits
    exact ⟨⟨hfits.size, hfits.bits⟩, hget, herrors⟩
  generalize hw : ({ w with report :=
    { w.report with inodesWalked := w.report.inodesWalked + 1 } } : Walk) = w₀ at h hcount
  suffices hrest : d' = d ∧ Runs v.fs.sb.blocksCount ((walkClaims v d ino).isSome = true)
      ((walkClaims v d ino).getD []) w₀ w' by
    exact ⟨hrest.1, (hcount.trans hrest.2).congr (and_iff_right trivial)⟩
  dsimp only at h
  rw [exec_attempt_bind (readInodeRaw_readsBlocks _ _)] at h
  unfold walkClaims inodeOn
  cases hread : ((v.fs.readInodeRaw ino).exec d).1 with
  | error e =>
    rw [hread] at h
    cases h
    exact ⟨rfl, (runs_error _ _).congr (by simp)⟩
  | ok raw =>
    rw [hread] at h
    dsimp only at h ⊢
    cases hparse : Inode.parse raw with
    | error e =>
      rw [hparse] at h
      cases h
      exact ⟨rfl, (runs_error _ _).congr (by simp [Except.toOption])⟩
    | ok inode =>
      rw [hparse] at h
      dsimp only [Except.toOption, Option.bind_eq_bind, Option.bind_some] at h ⊢
      by_cases hpassed : passedOver inode = true
      · have hdone : w₀ = w' ∧ d = d' := by
          unfold passedOver at hpassed
          rw [Bool.or_eq_true, beq_iff_eq] at hpassed
          by_cases hinline : inode.hasInlineData = true
          · rw [if_pos hinline] at h
            cases h
            exact ⟨rfl, rfl⟩
          · rw [if_neg hinline, if_pos (hpassed.resolve_left hinline)] at h
            cases h
            exact ⟨rfl, rfl⟩
        obtain ⟨rfl, rfl⟩ := hdone
        rw [if_pos hpassed]
        exact ⟨rfl, (Runs.refl _).congr (by simp)⟩
      · have hwalked : (walkInodeBlockTree debug v ino inode w₀).exec d = (.ok w', d') := by
          unfold passedOver at hpassed
          rw [Bool.or_eq_true, beq_iff_eq, not_or] at hpassed
          rwa [if_neg hpassed.1, if_neg hpassed.2] at h
        rw [if_neg hpassed]
        exact walkInodeBlockTree_runs hwalked

end WalkAll

section Groups

variable {debug : Error → String} {v : Volume} {d d' : Disk} {w w' : Walk}

def inodeAt (v : Volume) (bm : Bytes) (gi i : Nat) : Option UInt32 :=
  if isWalked v bm gi i then some (UInt32.ofNat
    (gi * v.fs.sb.inodesPerGroup.toNat + i + 1)) else none

def groupInodes (v : Volume) (bm : Bytes) (gi : Nat) : List UInt32 :=
  (List.range v.fs.sb.inodesPerGroup.toNat).filterMap (inodeAt v bm gi)

theorem walkGroupInodes_runs {group : BlockGroupDescriptor × Nat}
    (h : (walkGroupInodes debug v w group).exec d = (.ok w', d')) :
    d' = d ∧ ∃ bm, (readAt (group.1.inodeBitmap * v.fs.sb.blockSize) v.fs.sb.blockSize).exec d =
      (.ok bm, d) ∧
      Runs v.fs.sb.blocksCount (∀ ino ∈ groupInodes v bm group.2,
      (walkClaims v d ino).isSome = true)
        ((groupInodes v bm group.2).flatMap (fun ino => (walkClaims v d ino).getD [])) w w' := by
  unfold walkGroupInodes at h
  obtain ⟨bm, d₁, hread, hloop⟩ := Io.exec_bind_eq_ok _ _ _ _ _ h
  have hsame := (readAt_readsBlocks v.fs.sb.blockSize group.1.inodeBitmap).exec_snd d
  rw [hread] at hsame
  obtain rfl : d₁ = d := hsame
  have hstep : ∀ i ∈ List.range v.fs.sb.inodesPerGroup.toNat, ∀ w w' d',
      (if isWalked v bm group.2 i then
        walkInode debug v (UInt32.ofNat (group.2 * v.fs.sb.inodesPerGroup.toNat + i + 1)) w
      else return w : DevIo Walk).exec d₁ = (.ok w', d') →
      d' = d₁ ∧ Runs v.fs.sb.blocksCount
        (∀ ino ∈ (inodeAt v bm group.2 i).toList, (walkClaims v d₁ ino).isSome = true)
        ((inodeAt v bm group.2 i).toList.flatMap (fun ino => (walkClaims v d₁ ino).getD [])) w
          w' := by
    intro i _ w w' d' hx
    unfold inodeAt
    by_cases hwalked : isWalked v bm group.2 i = true
    · rw [if_pos hwalked] at hx ⊢
      obtain ⟨hd, hruns⟩ := walkInode_runs hx
      refine ⟨hd, ?_⟩
      rw [Option.toList_some, List.flatMap_cons, List.flatMap_nil, List.append_nil]
      refine hruns.congr ?_
      rw [List.forall_mem_singleton]
    · rw [if_neg hwalked] at hx ⊢
      cases hx
      exact ⟨rfl, (Runs.refl _).congr ⟨fun _ _ => nofun, fun _ => trivial⟩⟩
  obtain ⟨hd, hruns⟩ := foldlM_runs hstep hloop
  refine ⟨hd, bm, hread, ?_⟩
  unfold groupInodes
  rw [List.filterMap_eq_flatMap_toList, List.flatMap_assoc]
  refine hruns.congr ?_
  rw [List.forall_mem_flatMap]

def inodeBitmapOn (v : Volume) (d : Disk) (bgd : BlockGroupDescriptor) : Bytes :=
  match ((readAt (bgd.inodeBitmap * v.fs.sb.blockSize) v.fs.sb.blockSize).exec d).1 with
  | .error _ => []
  | .ok bm => bm

def walkedInodes (v : Volume) (d : Disk) : List UInt32 :=
  v.fs.groups.zipIdx.flatMap (fun group => groupInodes v (inodeBitmapOn v d group.1) group.2)

def claimsOn (v : Volume) (d : Disk) : List Claim :=
  (walkedInodes v d).flatMap (fun ino => (walkClaims v d ino).getD [])

theorem walkAllAllocatedInodes_runs (h : (walkAllAllocatedInodes debug v w).exec d = (.ok w', d')) :
    d' = d ∧ Runs v.fs.sb.blocksCount (∀ ino ∈ walkedInodes v d, (walkClaims v d ino).isSome = true)
      (claimsOn v d) w w' := by
  have hstep : ∀ group ∈ v.fs.groups.zipIdx, ∀ w w' d',
      (walkGroupInodes debug v w group).exec d = (.ok w', d') →
      d' = d ∧ Runs v.fs.sb.blocksCount
        (∀ ino ∈ groupInodes v (inodeBitmapOn v d group.1) group.2,
        (walkClaims v d ino).isSome = true)
        ((groupInodes v (inodeBitmapOn v d group.1) group.2).flatMap
          (fun ino => (walkClaims v d ino).getD [])) w w' := by
    intro group _ w w' d' hx
    obtain ⟨hd, bm, hread, hruns⟩ := walkGroupInodes_runs hx
    have hbm : inodeBitmapOn v d group.1 = bm := by
      rw [inodeBitmapOn, hread]
    rw [hbm]
    exact ⟨hd, hruns⟩
  obtain ⟨hd, hruns⟩ := foldlM_runs hstep h
  refine ⟨hd, ?_⟩
  unfold claimsOn walkedInodes
  rw [List.flatMap_assoc]
  refine hruns.congr ?_
  rw [List.forall_mem_flatMap]

end Groups

section Reconcile

variable {v : Volume} {d d' : Disk} {claimed : ClaimedBitmap} {r r' : VerifyReport}

def blockBitmapOn (v : Volume) (d : Disk) (bgd : BlockGroupDescriptor) : Bytes :=
  match ((readAt (bgd.blockBitmap * v.fs.sb.blockSize) v.fs.sb.blockSize).exec d).1 with
  | .error _ => []
  | .ok bm => bm

theorem errors_reconcileBlock {bm : Bytes} {gi i : Nat} :
    (reconcileBlock v claimed bm gi r i).errors = [] ↔
      r.errors = [] ∧ (claimed.get (groupStart v gi + i) = true → Alloc.bitIsSet bm i = true) := by
  unfold reconcileBlock
  dsimp only
  cases Alloc.bitIsSet bm i <;> cases claimed.get (groupStart v gi + i) <;>
    simp [VerifyReport.error, VerifyReport.warning]

theorem errors_foldl {ι : Type} {f : VerifyReport → ι → VerifyReport} {good : ι → Prop}
    (hstep : ∀ r x, (f r x).errors = [] ↔ r.errors = [] ∧ good x) (l : List ι) (r : VerifyReport) :
    (l.foldl f r).errors = [] ↔ r.errors = [] ∧ ∀ x ∈ l, good x := by
  induction l generalizing r with
  | nil => exact ⟨fun h => ⟨h, nofun⟩, fun h => h.1⟩
  | cons x l ih => rw [List.foldl_cons, ih, hstep, and_assoc, List.forall_mem_cons]

theorem reconcileWithBitmaps_errors {l : List (BlockGroupDescriptor × Nat)}
    (h : (l.foldlM (reconcileGroup v claimed) r).exec d = (.ok r', d')) :
    d' = d ∧ (r'.errors = [] ↔ r.errors = [] ∧ ∀ group ∈ l, ∀ i < groupLen v group.2,
      claimed.get (groupStart v group.2 + i) = true →
        Alloc.bitIsSet (blockBitmapOn v d group.1) i = true) := by
  induction l generalizing r with
  | nil =>
    cases h
    exact ⟨rfl, fun h => ⟨h, nofun⟩, fun h => h.1⟩
  | cons group l ih =>
    rw [List.foldlM_cons] at h
    obtain ⟨r₁, d₁, hgroup, hrest⟩ := Io.exec_bind_eq_ok _ _ _ _ _ h
    unfold reconcileGroup at hgroup
    obtain ⟨bm, d₂, hread, hdone⟩ := Io.exec_bind_eq_ok _ _ _ _ _ hgroup
    have hsame := (readAt_readsBlocks v.fs.sb.blockSize group.1.blockBitmap).exec_snd d
    rw [hread] at hsame
    obtain rfl : d₂ = d := hsame
    cases hdone
    obtain ⟨hd, hlater⟩ := ih hrest
    have hbm : blockBitmapOn v d₁ group.1 = bm := by
      rw [blockBitmapOn, hread]
    have hhere := errors_foldl (f := reconcileBlock v claimed bm group.2)
      (fun r i => errors_reconcileBlock) (List.range (groupLen v group.2)) r
    refine ⟨hd, ?_⟩
    rw [hlater, hhere, and_assoc, List.forall_mem_cons, hbm]
    simp only [List.mem_range]

end Reconcile

/-- The superblock and the descriptors hold possible values. -/
structure Sane (v : Volume) : Prop where
  magic : v.magic = ext4Magic
  blockSize : v.fs.sb.blockSize.isPowerOfTwo ∧ 1024 ≤ v.fs.sb.blockSize ∧ v.fs.sb.blockSize ≤ 65536
  blocks : v.fs.sb.blocksCount ≠ 0
  freeBlocks : v.freeBlocksCount ≤ v.fs.sb.blocksCount
  freeInodes : v.freeInodesCount ≤ v.fs.sb.inodesCount
  groups : ∀ bgd ∈ v.fs.groups, bgd.blockBitmap < v.fs.sb.blocksCount ∧
    bgd.inodeBitmap < v.fs.sb.blocksCount ∧ bgd.inodeTable < v.fs.sb.blocksCount ∧
    bgd.freeBlocksCount ≤ v.fs.sb.blocksPerGroup.toNat ∧
    bgd.freeInodesCount ≤ v.fs.sb.inodesPerGroup.toNat

section Spec

variable (v : Volume) (d : Disk)

/-- A symlink whose target is in the inode, a device, a fifo or a socket: `i_block` is no block
map. -/
def holdsNoMap (inode : Inode) : Bool :=
  let kind := inode.mode &&& 0xF000
  (kind == 0xA000 && decide (inode.size < 60) && !inode.hasExtents) ||
    !(kind == 0x8000 || kind == 0x4000 || kind == 0xA000)

/-- What an inode owns, by its kind; none if the inode or its extent tree cannot be read. -/
def inodeClaims (ino : UInt32) : Option (List Claim) := do
  let inode ← inodeOn v d ino
  if passedOver inode || holdsNoMap inode then return [] else treeClaims v d inode

def blockOn (b : Nat) : Result Bytes :=
    ((readAt (b * v.fs.sb.blockSize) v.fs.sb.blockSize).exec d).1

def usedBitmap (group : BlockGroupDescriptor × Nat) : Bytes :=
  match Alloc.blockBitmapOf v.fs.sb v.fs.groups (blockOn v d) group.2 group.1 with
  | .error _ => []
  | .ok bm => bm

def allocatedInodes : List UInt32 :=
  v.fs.groups.zipIdx.flatMap (fun group => groupInodes v
    (match Alloc.inodeBitmapOf v.fs.sb (blockOn v d) group.1 with
      | .error _ => []
      | .ok bm => bm) group.2)

def allClaims : List Claim := (allocatedInodes v d).flatMap
    (fun ino => (inodeClaims v d ino).getD [])

/-- The inodes in use can be read; each data block they map is in range, none of the file system's
own and not claimed before it; and whatever is claimed is marked used. -/
structure Owned : Prop where
  readable : ∀ ino ∈ allocatedInodes v d, (inodeClaims v d ino).isSome = true
  inRange : ∀ c ∈ allClaims v d, c.data = true → c.block < v.fs.sb.blocksCount
  notMetadata : ∀ c ∈ allClaims v d, c.data = true → c.block ∉ metadataMarks v
  once : (allClaims v d).Pairwise (fun a b => b.data = true → a.block ≠ b.block)
  used : ∀ group ∈ v.fs.groups.zipIdx, ∀ i < groupLen v group.2,
    (groupStart v group.2 + i ∈ metadataMarks v ∨
      ∃ c ∈ allClaims v d, c.block = groupStart v group.2 + i) →
    Alloc.bitIsSet (usedBitmap v d group) i = true

/-- Every group has its bitmaps written, and no inode without a block map counts blocks. -/
structure Plain : Prop where
  blocksInit : ∀ bgd ∈ v.fs.groups, bgd.isUninit blockUninit = false
  inodesInit : ∀ bgd ∈ v.fs.groups, bgd.isUninit inodeUninit = false
  maps : ∀ ino ∈ walkedInodes v d, ∀ inode, inodeOn v d ino = some inode →
    passedOver inode = false → holdsNoMap inode = false

end Spec

section Verdict

variable {debug : Error → String} {v : Volume} {d d' : Disk} {report : VerifyReport}

theorem mem_of_mem_zipIdx {group : BlockGroupDescriptor × Nat} (h : group ∈ v.fs.groups.zipIdx) :
    group.1 ∈ v.fs.groups := List.fst_mem_of_mem_zipIdx h

theorem allocatedInodes_eq (h : Plain v d) : allocatedInodes v d = walkedInodes v d := by
  refine List.flatMap_congr fun group hgroup => ?_
  have hinit := h.inodesInit group.1 (mem_of_mem_zipIdx hgroup)
  rw [Alloc.inodeBitmapOf, if_neg (by simp [hinit])]
  rfl

theorem inodeClaims_eq (h : Plain v d) {ino : UInt32} (hino : ino ∈ walkedInodes v d) :
    inodeClaims v d ino = walkClaims v d ino := by
  unfold inodeClaims walkClaims
  cases hinode : inodeOn v d ino with
  | none => rfl
  | some inode =>
    dsimp only [Option.bind_eq_bind, Option.bind_some]
    cases hpassed : passedOver inode with
    | true => rfl
    | false =>
      rw [h.maps ino hino inode hinode hpassed]
      rfl

theorem allClaims_eq (h : Plain v d) : allClaims v d = claimsOn v d := by
  unfold allClaims claimsOn
  rw [allocatedInodes_eq h]
  refine List.flatMap_congr fun ino hino => ?_
  rw [inodeClaims_eq h hino]

theorem usedBitmap_eq (h : Plain v d) {group : BlockGroupDescriptor × Nat}
    (hgroup : group ∈ v.fs.groups.zipIdx) : usedBitmap v d group = blockBitmapOn v d group.1 := by
  have hinit := h.blocksInit group.1 (mem_of_mem_zipIdx hgroup)
  rw [usedBitmap, Alloc.blockBitmapOf, if_neg (by simp [hinit])]
  rfl

theorem errors_verifySuperblock (r : VerifyReport) :
    (verifySuperblock v r).errors = [] ↔ r.errors = [] ∧ v.magic = ext4Magic ∧
      (v.fs.sb.blockSize.isPowerOfTwo ∧ 1024 ≤ v.fs.sb.blockSize ∧ v.fs.sb.blockSize ≤ 65536) ∧
      v.fs.sb.blocksCount ≠ 0 ∧ v.freeBlocksCount ≤ v.fs.sb.blocksCount ∧
      v.freeInodesCount ≤ v.fs.sb.inodesCount := by
  have hbs := blockSize_ge v.fs.sb
  unfold verifySuperblock
  dsimp only
  simp only [errors_check, bne_eq_false_iff_eq, decide_eq_false_iff_not, not_or, not_not, and_assoc,
    Nat.not_lt, UInt32.not_lt]
  have hne : v.fs.sb.blockSize ≠ 0 := by omega
  simp only [ne_eq, hne, not_false_iff, true_and]

theorem errors_verifyBgds (r : VerifyReport) :
    (verifyBgds v r).errors = [] ↔ r.errors = [] ∧ ∀ bgd ∈ v.fs.groups,
      bgd.blockBitmap < v.fs.sb.blocksCount ∧ bgd.inodeBitmap < v.fs.sb.blocksCount ∧
      bgd.inodeTable < v.fs.sb.blocksCount ∧ bgd.freeBlocksCount ≤ v.fs.sb.blocksPerGroup.toNat ∧
      bgd.freeInodesCount ≤ v.fs.sb.inodesPerGroup.toNat := by
  have hstep : ∀ r (group : BlockGroupDescriptor × Nat), (verifyBgd v r group).errors = [] ↔
      r.errors = [] ∧ (group.1.blockBitmap < v.fs.sb.blocksCount ∧
        group.1.inodeBitmap < v.fs.sb.blocksCount ∧ group.1.inodeTable < v.fs.sb.blocksCount ∧
        group.1.freeBlocksCount ≤ v.fs.sb.blocksPerGroup.toNat ∧
        group.1.freeInodesCount ≤ v.fs.sb.inodesPerGroup.toNat) := by
    intro r group
    unfold verifyBgd
    dsimp only
    simp only [errors_check, decide_eq_false_iff_not, Nat.not_le, Nat.not_lt, and_assoc]
  unfold verifyBgds
  rw [errors_foldl hstep]
  refine and_congr_right fun _ => ⟨fun h bgd hbgd => ?_, fun h group hgroup => ?_⟩
  · obtain ⟨i, hi, rfl⟩ := List.mem_iff_getElem.mp hbgd
    exact h (v.fs.groups[i], i) (List.mem_zipIdx_iff_getElem?.mpr (List.getElem?_eq_getElem hi))
  · exact h group.1 (mem_of_mem_zipIdx hgroup)

theorem markMetadataBlocks_fits {total : Nat} (l : List Nat) (c : ClaimedBitmap)
    (hsize : c.total = total) (hbits : total ≤ c.bits.length * 8) :
    (l.foldl ClaimedBitmap.mark c).total = total ∧
      total ≤ (l.foldl ClaimedBitmap.mark c).bits.length * 8 ∧
      ∀ b < total, (l.foldl ClaimedBitmap.mark c).get b = true ↔ c.get b = true ∨ b ∈ l := by
  induction l generalizing c with
  | nil => exact ⟨hsize, hbits, fun b _ => ⟨.inl, fun h => h.resolve_right nofun⟩⟩
  | cons a l ih =>
    obtain ⟨hfits, hget, -⟩ := runs_mark ⟨c, .empty⟩ a ⟨hsize, hbits⟩
    obtain ⟨hsize', hbits', hget'⟩ := ih (c.mark a) hfits.size hfits.bits
    refine ⟨hsize', hbits', fun b hb => ?_⟩
    rw [List.foldl_cons, hget' b hb, List.mem_cons]
    have hmark := hget b hb
    simp only [List.mem_singleton, exists_eq_left] at hmark
    change (c.mark a).get b = true ↔ c.get b = true ∨ a = b at hmark
    rw [hmark, or_assoc, @eq_comm _ a b]

theorem verify_walk {claimed : ClaimedBitmap} {r : VerifyReport} {w : Walk} (hplain : Plain v d)
    (hclaimed : claimed = markMetadataBlocks v (.new v.fs.sb.blocksCount))
    (hwalk : (walkAllAllocatedInodes debug v ⟨claimed, r⟩).exec d = (.ok w, d))
    (hreconcile : (reconcileWithBitmaps v w.claimed w.report).exec d = (.ok report, d')) :
    d' = d ∧ (report.errors = [] ↔ r.errors = [] ∧ Owned v d) := by
  have hnew : v.fs.sb.blocksCount ≤ (ClaimedBitmap.new v.fs.sb.blocksCount).bits.length * 8 := by
    simp only [ClaimedBitmap.new, List.length_replicate, divCeil]
    omega
  have hempty : ∀ b, (ClaimedBitmap.new v.fs.sb.blocksCount).get b = false :=
    fun b => bit_replicate_zero _ b
  obtain ⟨hsize, hbits, hmarked⟩ := markMetadataBlocks_fits (metadataMarks v)
    (ClaimedBitmap.new v.fs.sb.blocksCount) rfl hnew
  have hmeta : ∀ b < v.fs.sb.blocksCount, claimed.get b = true ↔ b ∈ metadataMarks v := by
    intro b hb
    rw [hclaimed, markMetadataBlocks, hmarked b hb, hempty b]
    simp
  obtain ⟨-, hruns⟩ := walkAllAllocatedInodes_runs hwalk
  have hfits : Fits v.fs.sb.blocksCount ⟨claimed, r⟩ := by
    rw [hclaimed]
    exact ⟨hsize, hbits⟩
  obtain ⟨-, hget, herrors⟩ := hruns hfits
  obtain ⟨hd, hverdict⟩ := reconcileWithBitmaps_errors hreconcile
  refine ⟨hd, ?_⟩
  rw [hverdict, herrors]
  have hall := allClaims_eq hplain
  have hinodes := allocatedInodes_eq hplain
  -- every block of a group is below the end of the volume
  have hinside : ∀ gi, ∀ i < groupLen v gi, groupStart v gi + i < v.fs.sb.blocksCount := by
    intro gi i hi
    unfold groupLen at hi
    omega
  constructor
  · rintro ⟨⟨hr, hreadable, hdata, honce⟩, hused⟩
    refine ⟨hr, ?_⟩
    constructor
    case readable =>
      rw [hinodes]
      intro ino hino
      rw [inodeClaims_eq hplain hino]
      exact hreadable ino hino
    case inRange =>
      rw [hall]
      exact fun c hc hd => (hdata c hc hd).1
    case notMetadata =>
      rw [hall]
      intro c hc hd hmem
      have hfree := (hdata c hc hd).2
      dsimp only at hfree
      rw [(hmeta _ (hdata c hc hd).1).mpr hmem] at hfree
      cases hfree
    case once =>
      rw [hall]
      exact honce
    case used =>
      rw [hall]
      intro group hgroup i hi hclaims
      rw [usedBitmap_eq hplain hgroup]
      refine hused group hgroup i hi ?_
      rw [hget _ (hinside _ i hi)]
      refine hclaims.imp_left fun hmem => ?_
      exact (hmeta _ (hinside _ i hi)).mpr hmem
  · rintro ⟨hr, howned⟩
    refine ⟨⟨hr, ?_, ?_, ?_⟩, ?_⟩
    · intro ino hino
      rw [← inodeClaims_eq hplain hino]
      exact howned.readable ino (by rwa [hinodes])
    · intro c hc hd
      rw [← hall] at hc
      have hlt := howned.inRange c hc hd
      refine ⟨hlt, ?_⟩
      rw [← Bool.not_eq_true]
      exact fun hget => howned.notMetadata c hc hd ((hmeta _ hlt).mp hget)
    · rw [← hall]
      exact howned.once
    · intro group hgroup i hi hclaims
      rw [← usedBitmap_eq hplain hgroup]
      refine howned.used group hgroup i hi ?_
      rw [hget _ (hinside _ i hi), ← hall] at hclaims
      exact hclaims.imp_left (hmeta _ (hinside _ i hi)).mp

end Verdict

end FsExt4.Verify
