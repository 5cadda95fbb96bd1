import FsExt4.ExtentInsert
import Mathlib.Data.List.Chain

namespace FsExt4

open Lib

/-- The block that the index entry for the target names, or nothing at a leaf. -/
def childBlock (target : Nat) (node : Bytes) : Result (Option Nat) := do
  let header ← ExtentHeader.parse node
  if header.isLeaf then return none
  if header.entries = 0 then
    throw (.corruptExtentTree "internal node with zero index entries")
  let entries ← parseIndexEntries node header
  match chosen ExtentIdx.logicalBlock target entries with
  | none => throw (.corruptExtentTree "internal node with zero index entries")
  | some idx => return some idx.leafBlock

section Descent

variable (read : NodeReader) (target : Nat)

def blocksRead : Nat → Bytes → List Nat
  | 0, _ => []
  | fuel + 1, node =>
    match childBlock target node with
    | .ok (some b) =>
      b :: match read b with
        | .ok child => blocksRead fuel child
        | .error _ => []
    | _ => []

def RootRefused (root : Bytes) : Prop :=
  match ExtentHeader.parse root with
  | .error _ => True
  | .ok header => extMaxDepth < header.depth

/-- `descend_to_leaf`, when it ends within `fuel` rounds: its outcome, and the blocks it read. -/
def descendToLeaf (fuel : Nat) (root : Bytes) :
    Option (Result (PathFrame × List PathFrame) × List Nat) :=
  match ExtentHeader.parse root with
  | .error e => some (.error e, [])
  | .ok header =>
    if extMaxDepth < header.depth then
      some (.error (.corruptExtentTree "extent tree depth exceeds spec maximum"), [])
    else (descendFrom read target fuel ⟨0, root⟩ []).map
      (fun r => (r, blocksRead read target fuel root))

def OneBelow (child parent : PathFrame) : Prop :=
  ∃ hc hp, ExtentHeader.parse child.bytes = .ok hc ∧ ExtentHeader.parse parent.bytes = .ok hp ∧
    hc.depth + 1 = hp.depth

/-- The descent ends before it reads more nodes than a tree can have below its root, with a path on
which each node is one level below the one above it. -/
def DescentBounded (root : Bytes) : Prop :=
  ∃ fuel outcome reads, descendToLeaf read target fuel root = some (outcome, reads) ∧
    reads.length ≤ extMaxDepth + 1 ∧
    ∀ leaf above, outcome = .ok (leaf, above) → List.IsChain OneBelow (leaf :: above)

/-- Within `n` reads the way to the target comes to a node that is refused or cannot be read. -/
def WayRefused : Nat → Bytes → Prop
  | 0, node => ∃ e, childBlock target node = .error e
  | n + 1, node => (∃ e, childBlock target node = .error e) ∨
    ∃ b, childBlock target node = .ok (some b) ∧
      ((∃ e, read b = .error e) ∨ ∃ child, read b = .ok child ∧ WayRefused n child)

/-- The way to the target leads from a node of depth `n` to a leaf, a level lower with each node. -/
def WayFalls : Nat → Bytes → Prop
  | 0, node => childBlock target node = .ok none
  | n + 1, node => (∃ header, ExtentHeader.parse node = .ok header ∧ header.depth = n + 1) ∧
    ∃ b child, childBlock target node = .ok (some b) ∧ read b = .ok child ∧ WayFalls n child

end Descent

section Steps

variable {read : NodeReader} {target : Nat} {node : Bytes}

theorem descendStep_eq (frame : PathFrame) : descendStep read target frame =
    match childBlock target frame.bytes with
    | .error e => .error e
    | .ok none => .ok none
    | .ok (some b) =>
      match read b with
      | .error e => .error e
      | .ok bytes => .ok (some ⟨b, bytes⟩) := by
  unfold descendStep childBlock
  cases ExtentHeader.parse frame.bytes with
  | error e => rfl
  | ok header =>
    simp only [bind, Except.bind, pure, Except.pure, throw, throwThe, MonadExceptOf.throw]
    split
    · rfl
    split
    · rfl
    cases parseIndexEntries frame.bytes header with
    | error e => rfl
    | ok entries =>
      dsimp only
      cases chosen ExtentIdx.logicalBlock target entries with
      | none => rfl
      | some idx =>
        dsimp only
        cases read idx.leafBlock <;> rfl

theorem depth_of_leaf (h : childBlock target node = .ok none) :
    ∃ header, ExtentHeader.parse node = .ok header ∧ header.depth = 0 := by
  unfold childBlock at h
  cases hparse : ExtentHeader.parse node with
  | error e =>
    rw [hparse] at h
    cases h
  | ok header =>
    rw [hparse] at h
    simp only [bind, Except.bind, pure, Except.pure, throw, throwThe, MonadExceptOf.throw] at h
    split at h
    · rename_i hleaf
      exact ⟨header, rfl, by simpa [ExtentHeader.isLeaf] using hleaf⟩
    split at h
    · cases h
    split at h
    · cases h
    split at h <;> cases h

theorem depth_of_wayFalls {n : Nat} (h : WayFalls read target n node) :
    ∃ header, ExtentHeader.parse node = .ok header ∧ header.depth = n := by
  cases n with
  | zero => exact depth_of_leaf h
  | succ n => exact h.1

theorem WayRefused.succ {n : Nat} (h : WayRefused read target n node) : WayRefused read target
    (n + 1) node := by
  induction n generalizing node with
  | zero => exact .inl h
  | succ n ih =>
    obtain herror | ⟨b, hb, hread | ⟨child, hchild, hrest⟩⟩ := h
    · exact .inl herror
    · exact .inr ⟨b, hb, .inl hread⟩
    · exact .inr ⟨b, hb, .inr ⟨child, hchild, ih hrest⟩⟩

theorem WayRefused.mono {m n : Nat} (h : WayRefused read target m node) (hle : m ≤ n) :
    WayRefused read target n node := by
  induction hle with
  | refl => exact h
  | step _ ih => exact ih.succ

end Steps

section Runs

variable {read : NodeReader} {target : Nat}

theorem descendFrom_of_refused {n : Nat} {frame : PathFrame} (above : List PathFrame)
    (h : WayRefused read target n frame.bytes) :
    ∃ e, descendFrom read target (n + 1) frame above = some (.error e) ∧
      (blocksRead read target (n + 1) frame.bytes).length ≤ n := by
  induction n generalizing frame above with
  | zero =>
    obtain ⟨e, he⟩ := h
    rw [descendFrom, descendStep_eq, blocksRead, he]
    exact ⟨e, rfl, Nat.le_refl 0⟩
  | succ n ih =>
    rw [descendFrom, descendStep_eq, blocksRead]
    obtain ⟨e, he⟩ | ⟨b, hb, ⟨e, he⟩ | ⟨child, hchild, hrest⟩⟩ := h
    · rw [he]
      exact ⟨e, rfl, Nat.zero_le _⟩
    · rw [hb]
      dsimp only
      rw [he]
      exact ⟨e, rfl, Nat.succ_le_succ (Nat.zero_le _)⟩
    · obtain ⟨e, hrun, hreads⟩ := @ih ⟨b, child⟩ (frame :: above) hrest
      rw [hb]
      dsimp only
      rw [hchild]
      exact ⟨e, hrun, Nat.succ_le_succ hreads⟩

theorem descendFrom_of_falls {n : Nat} {frame : PathFrame} {above : List PathFrame}
    (h : WayFalls read target n frame.bytes) (habove : List.IsChain OneBelow (frame :: above)) :
    ∃ leaf path, descendFrom read target (n + 1) frame above = some (.ok (leaf, path)) ∧
      (blocksRead read target (n + 1) frame.bytes).length = n ∧ List.IsChain OneBelow
        (leaf :: path) := by
  induction n generalizing frame above with
  | zero =>
    have hleaf : childBlock target frame.bytes = .ok none := h
    rw [descendFrom, descendStep_eq, blocksRead, hleaf]
    exact ⟨frame, above, rfl, rfl, habove⟩
  | succ n ih =>
    obtain ⟨⟨hp, hparse, hdepth⟩, b, child, hb, hread, hrest⟩ := h
    obtain ⟨hc, hcparse, hcdepth⟩ := depth_of_wayFalls hrest
    have hbelow : OneBelow ⟨b, child⟩ frame := ⟨hc, hp, hcparse, hparse, by omega⟩
    obtain ⟨leaf, path, hrun, hreads, hchain⟩ := @ih ⟨b, child⟩ (frame :: above) hrest
      (List.IsChain.cons_cons hbelow habove)
    refine ⟨leaf, path, ?_, ?_, hchain⟩
    · rw [descendFrom, descendStep_eq, hb]
      dsimp only
      rw [hread]
      exact hrun
    · rw [blocksRead, hb]
      dsimp only
      rw [hread]
      exact congrArg Nat.succ hreads

theorem descendFrom_path {fuel : Nat} {frame leaf : PathFrame} {above path : List PathFrame}
    (h : descendFrom read target fuel frame above = some (.ok (leaf, path))) :
    ∃ front, leaf :: path = front ++ frame :: above := by
  induction fuel generalizing frame above with
  | zero => cases h
  | succ fuel ih =>
    rw [descendFrom] at h
    cases hstep : descendStep read target frame with
    | error e =>
      rw [hstep] at h
      cases h
    | ok next =>
      rw [hstep] at h
      cases next with
      | none =>
        obtain ⟨rfl, rfl⟩ := Prod.mk.inj (Except.ok.inj (Option.some.inj h))
        exact ⟨[], rfl⟩
      | some child =>
        obtain ⟨front, hfront⟩ := ih h
        exact ⟨front ++ [child], by rw [hfront, List.append_assoc]; rfl⟩

theorem refused_of_descendFrom {fuel : Nat} {frame : PathFrame} {above : List PathFrame} {e : Error}
    (h : descendFrom read target fuel frame above = some (.error e)) :
    WayRefused read target (blocksRead read target fuel frame.bytes).length frame.bytes := by
  induction fuel generalizing frame above with
  | zero => cases h
  | succ fuel ih =>
    rw [descendFrom, descendStep_eq] at h
    rw [blocksRead]
    cases hchild : childBlock target frame.bytes with
    | error e => exact ⟨e, hchild⟩
    | ok next =>
      rw [hchild] at h
      cases next with
      | none => cases h
      | some b =>
        dsimp only at h ⊢
        cases hread : read b with
        | error e => exact .inr ⟨b, hchild, .inl ⟨e, hread⟩⟩
        | ok child =>
          rw [hread] at h
          exact .inr ⟨b, hchild, .inr ⟨child, hread, ih h⟩⟩

theorem falls_of_descendFrom {fuel : Nat} {frame leaf : PathFrame} {above path : List PathFrame}
    (h : descendFrom read target fuel frame above = some (.ok (leaf, path)))
    (hchain : List.IsChain OneBelow (leaf :: path)) : ∃ n, WayFalls read target n frame.bytes := by
  induction fuel generalizing frame above with
  | zero => cases h
  | succ fuel ih =>
    rw [descendFrom, descendStep_eq] at h
    cases hchild : childBlock target frame.bytes with
    | error e =>
      rw [hchild] at h
      cases h
    | ok next =>
      rw [hchild] at h
      cases next with
      | none => exact ⟨0, hchild⟩
      | some b =>
        dsimp only at h
        cases hread : read b with
        | error e =>
          rw [hread] at h
          cases h
        | ok child =>
          rw [hread] at h
          obtain ⟨n, hn⟩ := ih h
          obtain ⟨front, hfront⟩ := descendFrom_path h
          rw [hfront] at hchain
          obtain ⟨-, hend⟩ := List.isChain_append.mp hchain |>.imp_right And.left
          have hbelow : OneBelow ⟨b, child⟩ frame := (List.isChain_cons_cons.mp hend).1
          obtain ⟨hc, hp, hcparse, hparse, hdepth⟩ := hbelow
          obtain ⟨hc', hcparse', hcdepth⟩ := depth_of_wayFalls hn
          obtain rfl := Except.ok.inj (hcparse.symm.trans hcparse')
          exact ⟨n + 1, ⟨hp, hparse, by omega⟩, b, child, hchild, hread, hn⟩

end Runs

section Bounded

variable {read : NodeReader} {target : Nat} {root : Bytes}

theorem descendToLeaf_of_rootRefused (h : RootRefused root) (fuel : Nat) :
    ∃ e, descendToLeaf read target fuel root = some (.error e, []) := by
  unfold RootRefused at h
  unfold descendToLeaf
  split at h
  · exact ⟨_, rfl⟩
  · exact ⟨_, if_pos h⟩

theorem descendToLeaf_of_not_rootRefused (h : ¬ RootRefused root) (fuel : Nat) :
    descendToLeaf read target fuel root = (descendFrom read target fuel ⟨0, root⟩ []).map
      (fun r => (r, blocksRead read target fuel root)) := by
  unfold RootRefused at h
  unfold descendToLeaf
  split at h
  · exact absurd trivial h
  · exact if_neg h

/-- The descent is bounded from the roots that are refused, and down the ways that are refused soon
enough or that fall level by level. -/
theorem descentBounded_iff : DescentBounded read target root ↔
    RootRefused root ∨ WayRefused read target (extMaxDepth + 1) root ∨ ∃ n,
    WayFalls read target n root := by
  by_cases hroot : RootRefused root
  · obtain ⟨e, he⟩ := @descendToLeaf_of_rootRefused read target root hroot 0
    refine ⟨fun _ => .inl hroot, fun _ => ⟨0, _, _, he, Nat.zero_le _, ?_⟩⟩
    intro leaf above hok
    cases hok
  · constructor
    · rintro ⟨fuel, outcome, reads, hrun, hreads, hpath⟩
      right
      rw [descendToLeaf_of_not_rootRefused hroot, Option.map_eq_some_iff] at hrun
      obtain ⟨r, hrun, hr⟩ := hrun
      obtain ⟨rfl, rfl⟩ := Prod.mk.inj hr
      cases r with
      | error e => exact .inl ((refused_of_descendFrom hrun).mono hreads)
      | ok path => exact .inr (falls_of_descendFrom hrun (hpath _ _ rfl))
    · intro h
      obtain href | ⟨n, hfalls⟩ := h.resolve_left hroot
      · obtain ⟨e, hrun, hreads⟩ := @descendFrom_of_refused read target _ ⟨0, root⟩ [] href
        refine ⟨_, .error e, _, by rw [descendToLeaf_of_not_rootRefused hroot, hrun]; rfl, hreads,
          ?_⟩
        intro leaf above hok
        cases hok
      · obtain ⟨leaf, above, hrun, hreads, hchain⟩ :=
          @descendFrom_of_falls read target n ⟨0, root⟩ [] hfalls (List.isChain_singleton _)
        obtain ⟨header, hparse, hdepth⟩ := depth_of_wayFalls hfalls
        have hle : n ≤ extMaxDepth := by
          unfold RootRefused at hroot
          rw [hparse] at hroot
          omega
        refine ⟨n + 1, _, _, by rw [descendToLeaf_of_not_rootRefused hroot, hrun]; rfl, by
          rw [hreads]; exact Nat.le_succ_of_le hle, ?_⟩
        intro leaf' above' hok
        obtain ⟨rfl, rfl⟩ := Prod.mk.inj (Except.ok.inj hok)
        exact hchain

theorem planInsertExtentDeep_ends (new : Extent) (blockSize : Nat) (alloc : Allocator) {fuel : Nat}
    {r : Result (PathFrame × List PathFrame) × List Nat}
    (h : descendToLeaf read new.logicalBlock fuel root = some r) :
    ∃ plan, planInsertExtentDeep fuel root new blockSize read alloc = some plan := by
  unfold planInsertExtentDeep
  unfold descendToLeaf at h
  split
  · exact ⟨_, rfl⟩
  split
  · exact ⟨_, rfl⟩
  · rename_i header hparse
    rw [hparse] at h
    dsimp only at h
    split
    · exact ⟨_, rfl⟩
    · rename_i hdepth
      rw [if_neg hdepth, Option.map_eq_some_iff] at h
      obtain ⟨path, hpath, -⟩ := h
      exact ⟨_, by rw [hpath]; rfl⟩

end Bounded

/-- The write-side descent and the insert plan over it are bounded, as the lookup is from any root,
exactly down the ways that `descentBounded_iff` names. -/
theorem deep_descent_bounded_iff (read : NodeReader) (target : Nat) (root : Bytes) :
    (DescentBounded read target root ∧
      (∀ (new : Extent) (blockSize : Nat) (alloc : Allocator), new.logicalBlock = target →
        ∃ fuel plan, planInsertExtentDeep fuel root new blockSize read alloc = some plan) ∧
      ∀ (blockSize logical : Nat) (d : Disk),
        ((Extent.lookup root blockSize logical).reads d).length ≤ extMaxDepth + 1) ↔
    RootRefused root ∨ WayRefused read target (extMaxDepth + 1) root ∨ ∃ n,
    WayFalls read target n root := by
  constructor
  · exact fun h => descentBounded_iff.mp h.1
  · intro h
    have hbounded := descentBounded_iff.mpr h
    refine ⟨hbounded, ?_, fun blockSize logical d => Extent.length_reads_lookup root
      blockSize logical d⟩
    rintro new blockSize alloc rfl
    obtain ⟨fuel, outcome, reads, hrun, -⟩ := hbounded
    exact ⟨fuel, planInsertExtentDeep_ends new blockSize alloc hrun⟩

def namesFive : Bytes := buildInlineIndexRoot 0 1 [⟨0, 5⟩]

theorem descendFrom_namesFive (fuel : Nat) (frame : PathFrame) (above : List PathFrame)
    (h : frame.bytes = namesFive) : descendFrom (fun _ => .ok namesFive) 0 fuel frame
      above = none := by
  have hchild : childBlock 0 namesFive = .ok (some 5) := by decide +kernel
  induction fuel generalizing frame above with
  | zero => rfl
  | succ fuel ih =>
    rw [descendFrom, descendStep_eq, h, hchild]
    exact ih ⟨5, namesFive⟩ (frame :: above) rfl

theorem not_every_descent_bounded : ¬ ∀ (read : NodeReader) (target : Nat) (root : Bytes),
    DescentBounded read target root ∧
      (∀ (new : Extent) (blockSize : Nat) (alloc : Allocator), new.logicalBlock = target →
        ∃ fuel plan, planInsertExtentDeep fuel root new blockSize read alloc = some plan) ∧
      ∀ (blockSize logical : Nat) (d : Disk),
        ((Extent.lookup root blockSize logical).reads d).length ≤ extMaxDepth + 1 := by
  intro h
  obtain ⟨fuel, outcome, reads, hrun, -⟩ := (h (fun _ => .ok namesFive) 0 namesFive).1
  have hroot : ¬ RootRefused namesFive := by
    have hparse : (ExtentHeader.parse namesFive).map ExtentHeader.depth = .ok 1 := by decide +kernel
    intro hbad
    unfold RootRefused at hbad
    cases hp : ExtentHeader.parse namesFive with
    | error e =>
      rw [hp] at hparse
      cases hparse
    | ok header =>
      rw [hp] at hparse hbad
      have hone : header.depth = 1 := Except.ok.inj hparse
      dsimp only at hbad
      rw [hone] at hbad
      exact absurd hbad (by decide)
  rw [descendToLeaf_of_not_rootRefused hroot, descendFrom_namesFive fuel ⟨0, namesFive⟩
    [] rfl] at hrun
  cases hrun

end FsExt4
