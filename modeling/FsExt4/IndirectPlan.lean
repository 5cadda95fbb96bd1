import FsExt4.IndirectLookup
import FsExt4.Filesystem
import Mathlib.Data.List.Nodup

namespace FsExt4.Indirect

open Lib PointerTree

def writeU32Le (buf : Bytes) (idx : Nat) (val : UInt32) : Bytes := copyAt buf (idx * 4) (u32le val)

def emitDataPtrs (buf : Bytes) (idx : Nat) (base : UInt32) : Nat → Bytes
  | 0 => buf
  | n + 1 => writeU32Le (emitDataPtrs buf idx base n) (idx + n) (base + UInt32.ofNat n)

def countIndirectBlocks (dataBlocks blockSize : Nat) : Nat :=
  let p := ppb blockSize
  if p = 0 then 0
  else if dataBlocks ≤ directCount then 0
  else
    let remaining := dataBlocks - directCount
    let count := 1
    if remaining ≤ p then count
    else
      let remaining := remaining - p
      let inDouble := min remaining (p * p)
      let count := count + 1 + divCeil inDouble p
      if remaining ≤ p * p then count
      else
        let remaining := remaining - p * p
        let inTriple := min remaining (p * p * p)
        count + 1 + (divCeil inTriple (p * p) + divCeil inTriple p)

structure IndirectPlan where
  iBlock : Bytes
  blockWrites : List (Nat × Bytes)
  indirectBlocksAllocated : List Nat

/-- What the planner has done so far, with how often it called `alloc_one`. -/
structure BuildState where
  calls : Nat
  indirectBlocksAllocated : List Nat
  blockWrites : List (Nat × Bytes)
  remaining : Nat
  logicalOffset : Nat

abbrev Build (α : Type) := ExceptT Error (StateM BuildState) α

def Build.exec {α : Type} (x : Build α) (st : BuildState) : Result α × BuildState :=
    StateT.run (ExceptT.run x) st

def checkU32 (v : Nat) : Build Unit :=
  if 2 ^ 32 ≤ v then throw
    (.corrupt "indirect_mut: indirect block address exceeds u32 (ext2/3 cap)")
  else pure ()

section Plan

variable (blockSize firstDataPhys : Nat) (allocOne : Nat → Result Nat)

/-- A pointer block from the allocator, whose answers are those of its calls in order. -/
def allocBlock : Build Nat := do
  let st ← get
  set { st with calls := st.calls + 1 }
  let blk ← liftM (allocOne st.calls)
  checkU32 blk
  modify fun st => { st with indirectBlocksAllocated := st.indirectBlocksAllocated ++ [blk] }
  pure blk

/-- Pointers to the next data blocks, as many as are left or as there is room for. -/
def emitNext (buf : Bytes) (room : Nat) : Build Bytes := do
  let st ← get
  let n := min st.remaining room
  set { st with remaining := st.remaining - n, logicalOffset := st.logicalOffset + n }
  pure (emitDataPtrs buf 0 (UInt32.ofNat (firstDataPhys + st.logicalOffset)) n)

def pointTo (build : Build Nat) (buf : Bytes) : Nat → Build Bytes
  | 0 => pure buf
  | n + 1 => do
    let buf ← pointTo build buf n
    let blk ← build
    pure (writeU32Le buf n (UInt32.ofNat blk))

def pushWrite (blk : Nat) (buf : Bytes) : Build Unit :=
  modify fun st => { st with blockWrites := st.blockWrites ++ [(blk, buf)] }

/-- A pointer block with all below it: at the bottom one of data pointers, above it one of pointers
to as many blocks as what is left needs. -/
def buildNode : Nat → Build Nat
  | 0 => do
    let blk ← allocBlock allocOne
    let buf ← emitNext firstDataPhys (List.replicate blockSize 0) (ppb blockSize)
    pushWrite blk buf
    pure blk
  | h + 1 => do
    let blk ← allocBlock allocOne
    let st ← get
    let needed := divCeil (min st.remaining (ppb blockSize ^ (h + 2))) (ppb blockSize ^ (h + 1))
    let buf ← pointTo (buildNode h) (List.replicate blockSize 0) needed
    pushWrite blk buf
    pure blk

def buildTier (slot height : Nat) (iBlock : Bytes) : Build Bytes := do
  let st ← get
  if st.remaining = 0 then pure iBlock
  else do
    let blk ← buildNode blockSize firstDataPhys allocOne height
    pure (writeU32Le iBlock slot (UInt32.ofNat blk))

def planTiers : Build IndirectPlan := do
  let iBlock ← emitNext firstDataPhys (List.replicate 60 0) directCount
  let iBlock ← buildTier blockSize firstDataPhys allocOne 12 0 iBlock
  let iBlock ← buildTier blockSize firstDataPhys allocOne 13 1 iBlock
  let iBlock ← buildTier blockSize firstDataPhys allocOne 14 2 iBlock
  let st ← get
  if 0 < st.remaining then
    throw (.invalidArgument "indirect_mut: data block count exceeds triple-indirect address space")
  else pure ⟨iBlock, st.blockWrites, st.indirectBlocksAllocated⟩

/-- The plan, and how often `alloc_one` was called for it. -/
def planContiguous (dataBlockCount : Nat) : Result IndirectPlan × Nat :=
  if ¬ blockSize.isPowerOfTwo ∨ blockSize < 1024 then
    (.error (.invalidArgument "indirect_mut: block_size out of range"), 0)
  else if ppb blockSize = 0 then
    (.error (.invalidArgument "indirect_mut: block_size too small for any pointers"), 0)
  else
    let lastDataPhys := firstDataPhys + (dataBlockCount - 1)
    if 2 ^ 64 ≤ lastDataPhys then
      (.error (.invalidArgument "indirect_mut: physical address overflow"), 0)
    else if 2 ^ 32 ≤ lastDataPhys then
      (.error (.invalidArgument "indirect_mut: data physical block exceeds u32 (ext2/3 cap)"), 0)
    else
      let out := (planTiers blockSize firstDataPhys allocOne).exec ⟨0, [], [], dataBlockCount, 0⟩
      (out.1, out.2.calls)

end Plan

theorem length_writeU32Le (buf : Bytes) {idx : Nat} (val : UInt32) (h : idx * 4 + 4 ≤ buf.length) :
    (writeU32Le buf idx val).length = buf.length := by
  rw [writeU32Le, length_copyAt _ _ _ (by rw [length_u32le]; exact h)]

theorem ptrAt_writeU32Le (buf : Bytes) {idx : Nat} (val : UInt32)
    (h : idx * 4 + 4 ≤ buf.length) (j : Nat) :
    ptrAt (writeU32Le buf idx val) j = if j = idx then val.toNat else ptrAt buf j := by
  unfold ptrAt writeU32Le
  by_cases hj : j = idx
  · rw [if_pos hj, hj, u32leAt_copyAt _ _ _ h]
  · rw [if_neg hj, u32leAt, u32leAt, slice_copyAt_disjoint _ _ _ _ _ (by omega)
      (by rw [length_u32le]; omega)]

theorem ptrAt_zeros (n j : Nat) : ptrAt (List.replicate n 0) j = 0 := by
  have hzeros : ∀ k, ofLe (List.replicate k 0) = 0 := by
    intro k
    induction k with
    | zero => rfl
    | succ k ih => rw [List.replicate_succ, ofLe, ih]; rfl
  rw [ptrAt, u32leAt, slice, List.drop_replicate, List.take_replicate, hzeros]
  rfl

theorem length_emitDataPtrs (buf : Bytes) (base : UInt32) (n : Nat) (h : n * 4 ≤ buf.length) :
    (emitDataPtrs buf 0 base n).length = buf.length := by
  induction n with
  | zero => rfl
  | succ n ih =>
    have hprev := ih (by omega)
    rw [emitDataPtrs, length_writeU32Le _ _ (by omega), hprev]

theorem ptrAt_emitDataPtrs (buf : Bytes) (first n : Nat) (h : n * 4 ≤ buf.length)
    (hfit : first + n ≤ 2 ^ 32)
    (j : Nat) : ptrAt (emitDataPtrs buf 0 (UInt32.ofNat first) n) j = if j < n
      then first + j else ptrAt buf j := by
  induction n with
  | zero => rw [if_neg (Nat.not_lt_zero j)]; rfl
  | succ n ih =>
    have hlen := length_emitDataPtrs buf (UInt32.ofNat first) n (by omega)
    have hval : (UInt32.ofNat first + UInt32.ofNat n).toNat = first + n := by
      rw [UInt32.toNat_add, UInt32.toNat_ofNat', UInt32.toNat_ofNat']
      omega
    rw [emitDataPtrs, ptrAt_writeU32Le _ _ (by omega), hval, ih (by omega) (by omega)]
    obtain hlt | heq | hgt := Nat.lt_trichotomy j n
    · rw [if_neg (by omega), if_pos hlt, if_pos (by omega)]
    · rw [if_pos (by omega), if_pos (by omega), heq]
    · rw [if_neg (by omega), if_neg (by omega), if_neg (by omega)]

namespace Build

variable {α β : Type} {st st' : BuildState}

theorem exec_bind (x : Build α) (f : α → Build β) (st : BuildState) :
    (x >>= f).exec st =
      match x.exec st with
      | (.ok a, st') => (f a).exec st'
      | (.error e, st') => (.error e, st') := by
  change StateT.bind x (ExceptT.bindCont f) st = _
  unfold exec StateT.bind
  change (match x st with | (a, s) => ExceptT.bindCont f a s) = match x st with
    | (.ok a, st') => f a st'
    | (.error e, st') => (.error e, st')
  obtain ⟨r, st'⟩ := x st
  cases r <;> rfl

theorem exec_bind_ok {x : Build α} {a : α} (h : x.exec st = (.ok a, st')) (f : α → Build β) :
    (x >>= f).exec st = (f a).exec st' := by
  rw [exec_bind, h]

theorem exec_get (f : BuildState → Build β) : (get >>= f : Build β).exec st = (f st).exec st := rfl

theorem exec_set (f : PUnit → Build β) : (set st' >>= f : Build β).exec st = (f ⟨⟩).exec st' := rfl

end Build

section DivCeil

variable {m k n q : Nat} (hq : 0 < q)

include hq

theorem le_divCeil_mul : m ≤ divCeil m q * q := by
  have hdiv := Nat.div_add_mod (m + q - 1) q
  have hmod := Nat.mod_lt (m + q - 1) hq
  rw [divCeil, Nat.mul_comm]
  omega

theorem mul_lt_of_lt_divCeil (h : k < divCeil m q) : k * q < m := by
  have hle : (k + 1) * q ≤ m + q - 1 := (Nat.le_div_iff_mul_le hq).mp h
  rw [Nat.succ_mul] at hle
  omega

theorem divCeil_le (h : m ≤ n * q) : divCeil m q ≤ n := by
  by_contra hlt
  have hmul := mul_lt_of_lt_divCeil hq (Nat.lt_of_not_le hlt)
  omega

theorem divCeil_add : divCeil (k * q + m) q = k + divCeil m q := by
  rw [divCeil, divCeil, Nat.add_assoc, Nat.add_sub_assoc (by omega), Nat.mul_comm,
    Nat.mul_add_div hq]

theorem divCeil_zero : divCeil 0 q = 0 := Nat.le_zero.mp (divCeil_le hq (Nat.zero_le _))

theorem divCeil_mul : divCeil (k * q) q = k := by
  have hadd := @divCeil_add 0 k q hq
  rwa [divCeil_zero hq] at hadd

theorem min_divCeil_mul {r : Nat} : min r (divCeil (min r (n * q)) q * q) = min r (n * q) := by
  have hle := @le_divCeil_mul (min r (n * q)) q hq
  have hge : divCeil (min r (n * q)) q ≤ n := divCeil_le hq (Nat.min_le_right _ _)
  have hmul := Nat.mul_le_mul_right q hge
  omega

end DivCeil

theorem divCeil_one {m q : Nat} (hm : 0 < m) (h : m ≤ q) : divCeil m q = 1 := by
  have hq : 0 < q := Nat.lt_of_lt_of_le hm h
  have hle : divCeil m q ≤ 1 := divCeil_le hq (by omega)
  have hge := @le_divCeil_mul m q hq
  have hne : divCeil m q ≠ 0 := by
    intro hzero
    rw [hzero] at hge
    omega
  omega

/-- The pointer blocks that `m` data blocks need, `h` levels above the lowest. -/
def nodeCount (p : Nat) : Nat → Nat → Nat
  | 0, m => divCeil m p
  | h + 1, m => divCeil m (p ^ (h + 2)) + nodeCount p h m

section Count

variable {p : Nat} (hp : 0 < p)

include hp

theorem nodeCount_zero (h : Nat) : nodeCount p h 0 = 0 := by
  induction h with
  | zero => exact divCeil_zero hp
  | succ h ih => rw [nodeCount, ih, divCeil_zero (Nat.pow_pos hp)]

theorem nodeCount_pos (h : Nat) {m : Nat} (hm : 0 < m) : 0 < nodeCount p h m := by
  induction h with
  | zero =>
    by_contra hzero
    have hle := @le_divCeil_mul m p hp
    rw [nodeCount] at hzero
    rw [Nat.eq_zero_of_not_pos hzero] at hle
    omega
  | succ h ih =>
    rw [nodeCount]
    omega

theorem nodeCount_add (h k m : Nat) :
    nodeCount p h (k * p ^ (h + 1) + m) = nodeCount p h (k * p ^ (h + 1)) + nodeCount p h m := by
  induction h generalizing k with
  | zero => simp only [nodeCount, Nat.zero_add, Nat.pow_one, divCeil_add hp, divCeil_mul hp]
  | succ h ih =>
    have hpow : k * p ^ (h + 2) = k * p * p ^ (h + 1) := by
      rw [Nat.pow_succ' (n := h + 1), Nat.mul_assoc]
    have hq : 0 < p ^ (h + 2) := Nat.pow_pos hp
    rw [nodeCount, nodeCount, nodeCount, divCeil_add hq, divCeil_mul hq, hpow, ih]
    omega

end Count

section Spec

variable {blocks : Nat → Nat}

/-- `count` data blocks mapped, with `nodes` calls of the allocator. -/
structure Grows (blocks : Nat → Nat) (st st' : BuildState) (count nodes : Nat)
    (writes : List (Nat × Bytes)) :
    Prop where
  remaining : st'.remaining = st.remaining - count
  offset : st'.logicalOffset = st.logicalOffset + count
  calls : st'.calls = st.calls + nodes
  allocated : st'.indirectBlocksAllocated =
    st.indirectBlocksAllocated ++ (List.range' st.calls nodes).map blocks
  writes : st'.blockWrites = st.blockWrites ++ writes

theorem Grows.refl (st : BuildState) : Grows blocks st st 0 0 [] where
  remaining := rfl
  offset := rfl
  calls := rfl
  allocated := (List.append_nil _).symm
  writes := (List.append_nil _).symm

theorem Grows.trans {st st' st'' : BuildState} {count count' nodes nodes' : Nat}
    {writes writes' : List (Nat × Bytes)} (h : Grows blocks st st' count nodes writes)
      (h' : Grows blocks st' st'' count' nodes' writes') :
    Grows blocks st st'' (count + count') (nodes + nodes') (writes ++ writes') where
  remaining := by rw [h'.remaining, h.remaining, Nat.sub_sub]
  offset := by rw [h'.offset, h.offset, Nat.add_assoc]
  calls := by rw [h'.calls, h.calls, Nat.add_assoc]
  allocated := by
    rw [h'.allocated, h.allocated, h.calls, List.append_assoc, ← List.map_append,
      List.range'_append_1]
  writes := by rw [h'.writes, h.writes, List.append_assoc]

def Holds (node : Nat → Result (Nat → Nat)) (writes : List (Nat × Bytes)) : Prop :=
  ∀ w ∈ writes, node w.1 = .ok (ptrAt w.2)

def Written (blocks : Nat → Nat) (calls nodes : Nat) (writes : List (Nat × Bytes)) : Prop :=
  (writes.map Prod.fst).Perm ((List.range' calls nodes).map blocks)

theorem Written.append {calls nodes nodes' : Nat} {writes writes' : List (Nat × Bytes)}
    (h : Written blocks calls nodes writes) (h' : Written blocks (calls + nodes) nodes' writes') :
    Written blocks calls (nodes + nodes') (writes ++ writes') := by
  unfold Written at h h' ⊢
  rw [List.map_append, ← List.range'_append_1, List.map_append]
  exact h.append h'

/-- An allocator that serves its first `calls` calls, each with a block that a pointer can hold. -/
structure Serves (allocOne : Nat → Result Nat) (blocks : Nat → Nat) (calls : Nat) : Prop where
  answers : ∀ k < calls, allocOne k = .ok (blocks k)
  nonzero : ∀ k < calls, blocks k ≠ 0
  fits : ∀ k < calls, blocks k < 2 ^ 32

variable {bs first calls : Nat} {allocOne : Nat → Result Nat}
  (hserves : Serves allocOne blocks calls)

include hserves in
theorem exec_allocBlock (st : BuildState) (hcall : st.calls < calls) : ∃ st',
    (allocBlock allocOne).exec st = (.ok (blocks st.calls), st') ∧ Grows blocks st st' 0 1 [] := by
  have hcheck : checkU32 (blocks st.calls) = pure () :=
    if_neg (Nat.not_le.mpr (hserves.fits _ hcall))
  refine ⟨⟨st.calls + 1, st.indirectBlocksAllocated ++ [blocks st.calls], st.blockWrites,
    st.remaining, st.logicalOffset⟩, ?_, ⟨rfl, rfl, rfl, rfl, (List.append_nil _).symm⟩⟩
  rw [allocBlock, Build.exec_get, Build.exec_set, hserves.answers _ hcall]
  change (checkU32 (blocks st.calls) >>= fun _ => _).exec _ = _
  rw [hcheck]
  rfl

theorem exec_emitNext {buf : Bytes} {room : Nat} (st : BuildState) (hroom : room * 4 ≤ buf.length)
    (hfit : first + st.logicalOffset + st.remaining ≤ 2 ^ 32) :
    ∃ buf' st', (emitNext first buf room).exec st = (.ok buf', st') ∧
      Grows blocks st st' (min st.remaining room) 0 [] ∧ buf'.length = buf.length ∧
      ∀ j, ptrAt buf' j = if j < min st.remaining room
        then first + st.logicalOffset + j else ptrAt buf j := by
  have hsmall : min st.remaining room * 4 ≤ buf.length :=
    Nat.le_trans (Nat.mul_le_mul_right 4 (Nat.min_le_right _ _)) hroom
  refine ⟨_, _, rfl, ⟨rfl, rfl, rfl, (List.append_nil _).symm, (List.append_nil _).symm⟩, ?_, ?_⟩
  · exact length_emitDataPtrs buf _ _ hsmall
  · exact ptrAt_emitDataPtrs buf _ _ hsmall (by omega)

structure Builds (blocks : Nat → Nat) (p first h : Nat) (st st' : BuildState)
    (writes : List (Nat × Bytes)) :
    Prop where
  grows : Grows blocks st st' (min st.remaining (p ^ (h + 1)))
    (nodeCount p h (min st.remaining (p ^ (h + 1)))) writes
  written : Written blocks st.calls (nodeCount p h (min st.remaining (p ^ (h + 1)))) writes
  walks : ∀ node, Holds node writes → ∀ o < p ^ (h + 1), walk node p (h + 1) o (blocks st.calls) =
    .ok (if o < st.remaining then some (first + st.logicalOffset + o) else none)

/-- A loop over subtrees: `k` of them, each of `p ^ (h + 1)` data blocks. -/
structure Points (blocks : Nat → Nat) (p first h k : Nat) (st st' : BuildState)
    (writes : List (Nat × Bytes)) (buf buf' : Bytes) : Prop where
  grows : Grows blocks st st' (min st.remaining (k * p ^ (h + 1)))
    (nodeCount p h (min st.remaining (k * p ^ (h + 1)))) writes
  written : Written blocks st.calls (nodeCount p h (min st.remaining (k * p ^ (h + 1)))) writes
  length : buf'.length = buf.length
  others : ∀ j, k ≤ j → ptrAt buf' j = ptrAt buf j
  walks : ∀ node, Holds node writes → ∀ j < k, ∀ o < p ^ (h + 1), walk node p (h + 1) o
    (ptrAt buf' j) = .ok (if j * p ^ (h + 1) + o < st.remaining
      then some (first + st.logicalOffset + (j * p ^ (h + 1) + o)) else none)

include hserves in
theorem exec_pointTo {p h : Nat} (hp : 0 < p) {build : Build Nat}
    (hbuild : ∀ st : BuildState, 0 < st.remaining →
    first + st.logicalOffset + st.remaining ≤ 2 ^ 32 →
      st.calls + nodeCount p h (min st.remaining (p ^ (h + 1))) ≤ calls →
      ∃ st' writes, build.exec st = (.ok (blocks st.calls), st') ∧
      Builds blocks p first h st st' writes)
    (buf : Bytes) (st : BuildState) (hfit : first + st.logicalOffset + st.remaining ≤ 2 ^ 32)
      (k : Nat)
    (hlen : k * 4 ≤ buf.length) (hk : ∀ j < k, j * p ^ (h + 1) < st.remaining)
    (hcalls : st.calls + nodeCount p h (min st.remaining (k * p ^ (h + 1))) ≤ calls) :
    ∃ buf' st' writes, (pointTo build buf k).exec st = (.ok buf', st') ∧
      Points blocks p first h k st st' writes buf buf' := by
  induction k with
  | zero =>
    refine ⟨buf, st, [], rfl, ?_⟩
    have hnone : nodeCount p h (min st.remaining (0 * p ^ (h + 1))) = 0 := by
      rw [Nat.zero_mul, Nat.min_zero, nodeCount_zero hp]
    have hzero : min st.remaining (0 * p ^ (h + 1)) = 0 := by rw [Nat.zero_mul, Nat.min_zero]
    refine ⟨?_, ?_, rfl, fun _ _ => rfl, fun _ _ _ hj => absurd hj (Nat.not_lt_zero _)⟩
    · rw [hnone, hzero]
      exact .refl st
    · rw [hnone]
      exact .refl _
  | succ k ih =>
    have hreach := hk k (Nat.lt_succ_self k)
    have hfull : min st.remaining (k * p ^ (h + 1)) = k * p ^ (h + 1) := Nat.min_eq_right (by omega)
    have hmul : (k + 1) * p ^ (h + 1) = k * p ^ (h + 1) + p ^ (h + 1) := Nat.succ_mul k _
    have hcount : min st.remaining ((k + 1) * p ^ (h + 1)) =
        k * p ^ (h + 1) + min (st.remaining - k * p ^ (h + 1)) (p ^ (h + 1)) := by omega
    have hnodes : nodeCount p h (min st.remaining ((k + 1) * p ^ (h + 1))) =
        nodeCount p h (k * p ^ (h + 1)) +
          nodeCount p h (min (st.remaining - k * p ^ (h + 1)) (p ^ (h + 1))) := by
      rw [hcount, nodeCount_add hp]
    obtain ⟨buf₁, st₁, writes₁, hexec₁, h₁⟩ := ih (by omega) (fun j hj => hk j (by omega))
      (by rw [hfull]; omega)
    have hrem := h₁.grows.remaining
    have hoff := h₁.grows.offset
    have hcalls₁ := h₁.grows.calls
    rw [hfull] at hrem hoff hcalls₁
    rw [← hrem] at hcount hnodes
    obtain ⟨st₂, writes₂, hexec₂, h₂⟩ := hbuild st₁ (by omega) (by omega) (by omega)
    have hcallBlock : blocks st₁.calls < 2 ^ 32 := hserves.fits _ (by
      have hsome := @nodeCount_pos p hp h (min st₁.remaining (p ^ (h + 1)))
        (Nat.lt_min.mpr ⟨by omega, Nat.pow_pos hp⟩)
      omega)
    have hslot : k * 4 + 4 ≤ buf₁.length := by
      rw [h₁.length]
      omega
    have hptr := ptrAt_writeU32Le buf₁ (UInt32.ofNat (blocks st₁.calls)) hslot
    refine ⟨writeU32Le buf₁ k (UInt32.ofNat (blocks st₁.calls)), st₂, writes₁ ++ writes₂, ?_, ?_⟩
    · rw [pointTo, Build.exec_bind_ok hexec₁, Build.exec_bind_ok hexec₂]
      rfl
    · refine ⟨?_, ?_, ?_, ?_, ?_⟩
      · have hgrows := h₁.grows
        rw [hfull] at hgrows
        rw [hnodes, hcount]
        exact hgrows.trans h₂.grows
      · have hwritten := h₁.written
        rw [hfull] at hwritten
        rw [hnodes]
        exact hwritten.append (hcalls₁ ▸ h₂.written)
      · rw [length_writeU32Le _ _ hslot, h₁.length]
      · intro j hj
        rw [hptr, if_neg (by omega), h₁.others j (by omega)]
      · intro node hholds j hj o ho
        obtain hj | rfl := Nat.lt_succ_iff_lt_or_eq.mp hj
        · rw [hptr, if_neg (by omega)]
          exact h₁.walks node (fun w hw => hholds w (List.mem_append_left _ hw)) j hj o ho
        · have hval : (UInt32.ofNat (blocks st₁.calls)).toNat = blocks st₁.calls := by
            rw [UInt32.toNat_ofNat', Nat.mod_eq_of_lt hcallBlock]
          rw [hptr, if_pos rfl, hval, h₂.walks node
            (fun w hw => hholds w (List.mem_append_right _ hw)) o ho, hrem, hoff]
          by_cases hin : j * p ^ (h + 1) + o < st.remaining
          · rw [if_pos hin, if_pos (by omega)]
            congr 2
            omega
          · rw [if_neg hin, if_neg (by omega)]

theorem exec_pushWrite (st : BuildState) (b : Nat) (buf : Bytes) : ∃ st',
    (pushWrite b buf).exec st = (.ok (), st') ∧
    Grows blocks st st' 0 0 [(b, buf)] :=
  ⟨{ st with blockWrites := st.blockWrites ++ [(b, buf)] }, rfl, rfl, rfl, rfl,
    (List.append_nil _).symm, rfl⟩

section Node

variable (hfirst : 0 < first) (hbs : BlockSize bs)

include hserves hfirst hbs

theorem exec_buildLeaf (st : BuildState) (hrem : 0 < st.remaining)
    (hfit : first + st.logicalOffset + st.remaining ≤ 2 ^ 32) (hcall : st.calls < calls) :
    ∃ st' writes, (buildNode bs first allocOne 0).exec st = (.ok (blocks st.calls), st') ∧
      Builds blocks (ppb bs) first 0 st st' writes := by
  have hp := hbs.ppb_pos
  have hlen : ppb bs * 4 ≤ (List.replicate bs (0 : UInt8)).length := by
    rw [List.length_replicate, ppb]
    omega
  obtain ⟨st₁, hexec₁, h₁⟩ := exec_allocBlock hserves st hcall
  have hrem₁ : st₁.remaining = st.remaining := h₁.remaining
  have hoff₁ : st₁.logicalOffset = st.logicalOffset := h₁.offset
  obtain ⟨buf, st₂, hexec₂, h₂, -, hptr⟩ := @exec_emitNext blocks first _ _ st₁ hlen (by omega)
  obtain ⟨st₃, hexec₃, h₃⟩ := @exec_pushWrite blocks st₂ (blocks st.calls) buf
  have hone : nodeCount (ppb bs) 0 (min st.remaining (ppb bs ^ (0 + 1))) = 1 := by
    rw [nodeCount, Nat.zero_add, Nat.pow_one]
    exact divCeil_one (by omega) (Nat.min_le_right _ _)
  refine ⟨st₃, [(blocks st.calls, buf)], ?_, ?_, ?_, ?_⟩
  · rw [buildNode, Build.exec_bind_ok hexec₁, Build.exec_bind_ok hexec₂, Build.exec_bind_ok hexec₃]
    rfl
  · have hgrows := (h₁.trans h₂).trans h₃
    rw [hrem₁, Nat.zero_add, Nat.add_zero] at hgrows
    rw [hone, Nat.zero_add, Nat.pow_one]
    exact hgrows
  · rw [hone]
    exact .refl _
  · intro node hholds o ho
    have hnode := hholds _ List.mem_cons_self
    have hchild := @walk_child _ node (ppb bs) _ _ (hserves.nonzero _ hcall) hnode 0 o 0
      (Nat.pow_pos hp)
    rw [Nat.zero_add, Nat.pow_one] at ho
    rw [Nat.pow_zero, Nat.mul_one] at hchild
    have hval : ptrAt buf o = if o < st.remaining then first + st.logicalOffset + o else 0 := by
      rw [hptr, hrem₁, hoff₁, ptrAt_zeros]
      exact if_congr (by omega) rfl rfl
    rw [show walk node (ppb bs) (0 + 1) o (blocks st.calls) = _ from hchild, walk, hval]
    by_cases hin : o < st.remaining
    · rw [if_pos hin, if_neg (by omega), if_pos hin]
    · rw [if_neg hin, if_pos rfl, if_neg hin]

theorem exec_buildNode (h : Nat) (st : BuildState) (hrem : 0 < st.remaining)
    (hfit : first + st.logicalOffset + st.remaining ≤ 2 ^ 32)
    (hcalls : st.calls + nodeCount (ppb bs) h (min st.remaining (ppb bs ^ (h + 1))) ≤ calls) :
    ∃ st' writes, (buildNode bs first allocOne h).exec st = (.ok (blocks st.calls), st') ∧
      Builds blocks (ppb bs) first h st st' writes := by
  have hp := hbs.ppb_pos
  have hsome := nodeCount_pos hp h (Nat.lt_min.mpr ⟨hrem, Nat.pow_pos (n := h + 1) hp⟩)
  induction h generalizing st with
  | zero => exact exec_buildLeaf hserves hfirst hbs st hrem hfit (by omega)
  | succ h ih =>
    have hP : 0 < ppb bs ^ (h + 1) := Nat.pow_pos hp
    have hpow : ppb bs ^ (h + 2) = ppb bs * ppb bs ^ (h + 1) := Nat.pow_succ'
    have hnodes : nodeCount (ppb bs) (h + 1) (min st.remaining (ppb bs ^ (h + 1 + 1))) =
        1 + nodeCount (ppb bs) h (min st.remaining (ppb bs ^ (h + 2))) := by
      rw [nodeCount, divCeil_one (Nat.lt_min.mpr ⟨hrem, Nat.pow_pos hp⟩) (Nat.min_le_right _ _)]
    obtain ⟨st₁, hexec₁, h₁⟩ := exec_allocBlock hserves st (by omega)
    have hrem₁ : st₁.remaining = st.remaining := h₁.remaining
    have hoff₁ : st₁.logicalOffset = st.logicalOffset := h₁.offset
    have hcalls₁ : st₁.calls = st.calls + 1 := h₁.calls
    generalize hneeded : divCeil (min st₁.remaining (ppb bs ^ (h + 2))) (ppb bs ^ (h + 1)) = needed
    have hcount : min st.remaining (needed * ppb bs ^ (h + 1)) = min st.remaining
        (ppb bs ^ (h + 2)) := by
      rw [← hneeded, hrem₁, hpow]
      exact min_divCeil_mul hP
    have hmost : needed ≤ ppb bs := by
      rw [← hneeded, hpow]
      exact divCeil_le hP (Nat.min_le_right _ _)
    obtain ⟨buf, st₂, writes, hexec₂, h₂⟩ := exec_pointTo hserves hp
      (fun st hrem hfit hcalls => ih st hrem hfit hcalls
        (nodeCount_pos hp h (Nat.lt_min.mpr ⟨hrem, Nat.pow_pos (n := h + 1) hp⟩)))
      (List.replicate bs 0) st₁ (by omega) needed
      (by
        rw [List.length_replicate]
        have hfour : ppb bs * 4 ≤ bs := Nat.div_mul_le_self bs 4
        omega)
      (fun j hj => by
        have hbelow := mul_lt_of_lt_divCeil hP (hneeded ▸ hj)
        omega)
      (by
        rw [hrem₁, hcount]
        omega)
    obtain ⟨st₃, hexec₃, h₃⟩ := @exec_pushWrite blocks st₂ (blocks st.calls) buf
    have hgrows₂ := h₂.grows
    have hwritten₂ := h₂.written
    rw [hrem₁, hcount] at hgrows₂ hwritten₂
    refine ⟨st₃, writes ++ [(blocks st.calls, buf)], ?_, ?_, ?_, ?_⟩
    · rw [buildNode, Build.exec_bind_ok hexec₁, Build.exec_get, hneeded, Build.exec_bind_ok hexec₂,
        Build.exec_bind_ok hexec₃]
      rfl
    · have hgrows := (h₁.trans hgrows₂).trans h₃
      rw [Nat.zero_add, Nat.add_zero, Nat.add_zero, List.nil_append] at hgrows
      rw [hnodes]
      exact hgrows
    · rw [hnodes, Written, List.map_append, Nat.add_comm, List.range'_succ, List.map_cons]
      rw [Written, hcalls₁] at hwritten₂
      exact (List.perm_append_comm).trans (hwritten₂.cons _)
    · intro node hholds o ho
      have hnode : node (blocks st.calls) = .ok (ptrAt buf) :=
        hholds _ (List.mem_append_right _ List.mem_cons_self)
      have hmod := Nat.mod_lt o hP
      have hdiv : o / ppb bs ^ (h + 1) * ppb bs ^ (h + 1) + o % ppb bs ^ (h + 1) = o :=
        Nat.div_add_mod' _ _
      generalize o / ppb bs ^ (h + 1) = j at hdiv
      generalize o % ppb bs ^ (h + 1) = o' at hdiv hmod
      have hchild := @walk_child _ node (ppb bs) _ _ (hserves.nonzero st.calls (by omega)) hnode
        (h + 1) j o' hmod
      rw [hdiv] at hchild
      rw [hchild]
      obtain hj | hj := Nat.lt_or_ge j needed
      · rw [h₂.walks node (fun w hw => hholds w (List.mem_append_left _ hw)) j hj o' hmod, hdiv,
          hrem₁, hoff₁]
      · -- no pointer, since the data ends before it
        have hmul := Nat.mul_le_mul_right (ppb bs ^ (h + 1)) hj
        have hend : h + 1 + 1 = h + 2 := rfl
        rw [h₂.others j hj, ptrAt_zeros, walk_hole, if_neg (by rw [hend] at ho; omega)]

end Node

end Spec

theorem countIndirectBlocks_eq {bs n : Nat} (hbs : BlockSize bs) : countIndirectBlocks n bs =
    nodeCount (ppb bs) 0 (min (n - directCount) (ppb bs)) +
      nodeCount (ppb bs) 1 (min (n - directCount - ppb bs) (ppb bs ^ 2)) +
      nodeCount (ppb bs) 2 (min (n - directCount - ppb bs - ppb bs ^ 2) (ppb bs ^ 3)) := by
  have hp := hbs.ppb_pos
  have htwo : ppb bs * ppb bs = ppb bs ^ 2 := (Nat.pow_two _).symm
  have hthree : ppb bs ^ 2 * ppb bs = ppb bs ^ 3 := (Nat.pow_succ _ _).symm
  have hp2 : 0 < ppb bs ^ 2 := Nat.pow_pos hp
  have hp3 : 0 < ppb bs ^ 3 := Nat.pow_pos hp
  unfold countIndirectBlocks
  dsimp only
  rw [if_neg (by omega), htwo, hthree]
  have hone : ∀ m, 0 < m → m ≤ ppb bs ^ 2 → nodeCount (ppb bs) 1 m = 1 + divCeil m (ppb bs) := by
    intro m hm hle
    rw [nodeCount, divCeil_one hm hle, nodeCount]
  have htop : ∀ m, 0 < m → m ≤ ppb bs ^ 3 →
      nodeCount (ppb bs) 2 m = 1 + (divCeil m (ppb bs ^ 2) + divCeil m (ppb bs)) := by
    intro m hm hle
    rw [nodeCount, divCeil_one hm hle, nodeCount, nodeCount]
  by_cases hdirect : n ≤ directCount
  · rw [if_pos hdirect, show n - directCount = 0 by omega, Nat.zero_sub, Nat.zero_sub, Nat.zero_min,
      Nat.zero_min, Nat.zero_min, nodeCount_zero hp, nodeCount_zero hp, nodeCount_zero hp]
  rw [if_neg hdirect]
  have hsingle1 : nodeCount (ppb bs) 0 (min (n - directCount) (ppb bs)) = 1 :=
    divCeil_one (by omega) (Nat.min_le_right _ _)
  rw [hsingle1]
  by_cases hsingle : n - directCount ≤ ppb bs
  · rw [if_pos hsingle, show n - directCount - ppb bs = 0 by omega, Nat.zero_sub, Nat.zero_min,
      Nat.zero_min, nodeCount_zero hp, nodeCount_zero hp]
  rw [if_neg hsingle, hone _ (by omega) (Nat.min_le_right _ _)]
  by_cases hdouble : n - directCount - ppb bs ≤ ppb bs ^ 2
  · rw [if_pos hdouble, show n - directCount - ppb bs - ppb bs ^ 2 = 0 by omega, Nat.zero_min,
      nodeCount_zero hp]
    omega
  rw [if_neg hdouble, htop _ (by omega) (Nat.min_le_right _ _)]
  omega

section Tiers

variable {blocks : Nat → Nat} {bs first calls : Nat} {allocOne : Nat → Result Nat}
  (hserves : Serves allocOne blocks calls) (hfirst : 0 < first) (hbs : BlockSize bs)

structure Fits (blocks : Nat → Nat) (p first h slot : Nat) (st st' : BuildState)
    (writes : List (Nat × Bytes)) (iBlock iBlock' : Bytes) : Prop where
  grows : Grows blocks st st' (min st.remaining (p ^ (h + 1)))
    (nodeCount p h (min st.remaining (p ^ (h + 1)))) writes
  written : Written blocks st.calls (nodeCount p h (min st.remaining (p ^ (h + 1)))) writes
  length : iBlock'.length = iBlock.length
  others : ∀ j, j ≠ slot → ptrAt iBlock' j = ptrAt iBlock j
  walks : ∀ node, Holds node writes → ∀ o < p ^ (h + 1), walk node p (h + 1) o
    (ptrAt iBlock' slot) =
    .ok (if o < st.remaining then some (first + st.logicalOffset + o) else none)

include hserves hfirst hbs

theorem exec_buildTier (slot h : Nat) (iBlock : Bytes) (st : BuildState)
    (hfit : first + st.logicalOffset + st.remaining ≤ 2 ^ 32)
    (hcalls : st.calls + nodeCount (ppb bs) h (min st.remaining (ppb bs ^ (h + 1))) ≤ calls)
    (hslot : slot * 4 + 4 ≤ iBlock.length) (hzero : ptrAt iBlock slot = 0) :
    ∃ iBlock' st' writes, (buildTier bs first allocOne slot h iBlock).exec st = (.ok iBlock', st') ∧
      Fits blocks (ppb bs) first h slot st st' writes iBlock iBlock' := by
  by_cases hrem : st.remaining = 0
  · have hnone : nodeCount (ppb bs) h (min st.remaining (ppb bs ^ (h + 1))) = 0 := by
      rw [hrem, Nat.zero_min, nodeCount_zero hbs.ppb_pos]
    refine ⟨iBlock, st, [], ?_, ?_, ?_, rfl, fun _ _ => rfl, fun node _ o _ => ?_⟩
    · rw [buildTier, Build.exec_get, if_pos hrem]
      rfl
    · rw [hnone, hrem, Nat.zero_min]
      exact .refl st
    · rw [hnone]
      exact .refl _
    · rw [hzero, walk_hole, if_neg (by omega)]
  · obtain ⟨st', writes, hexec, hbuilds⟩ := exec_buildNode hserves hfirst hbs h st
      (by omega) hfit hcalls
    have hsome := nodeCount_pos hbs.ppb_pos h
      (Nat.lt_min.mpr ⟨Nat.pos_of_ne_zero hrem, Nat.pow_pos (n := h + 1) hbs.ppb_pos⟩)
    have hptr := ptrAt_writeU32Le iBlock (UInt32.ofNat (blocks st.calls)) hslot
    refine ⟨writeU32Le iBlock slot (UInt32.ofNat (blocks st.calls)), st', writes, ?_, hbuilds.grows,
      hbuilds.written, length_writeU32Le _ _ hslot, fun j hj => ?_, fun node hholds o ho => ?_⟩
    · rw [buildTier, Build.exec_get, if_neg hrem, Build.exec_bind_ok hexec]
      rfl
    · rw [hptr, if_neg hj]
    · rw [hptr, if_pos rfl, UInt32.toNat_ofNat', Nat.mod_eq_of_lt (hserves.fits _ (by omega))]
      exact hbuilds.walks node hholds o ho

end Tiers

/-- On a device that holds the plan's pointer blocks, the map leads to the run and nowhere else. -/
structure MapsRun (bs first n : Nat) (plan : IndirectPlan) : Prop where
  lookups : ∀ d : Disk, (∀ w ∈ plan.blockWrites, ((readAt (w.1 * bs) bs).exec d).1 = .ok w.2) →
    ∀ i < addressable bs,
      (lookup plan.iBlock bs i).exec d = (.ok (if i < n then some (first + i) else none), d)
  written : (plan.blockWrites.map Prod.fst).Perm plan.indirectBlocksAllocated
  distinct : plan.indirectBlocksAllocated.Nodup

section Contiguous

variable {blocks : Nat → Nat} {bs first n : Nat} {allocOne : Nat → Result Nat}
  (hserves : Serves allocOne blocks (countIndirectBlocks n bs)) (hfirst : 0 < first)
    (hbs : BlockSize bs)

theorem holds_of_reads {d : Disk} {writes : List (Nat × Bytes)}
    (h : ∀ w ∈ writes, ((readAt (w.1 * bs) bs).exec d).1 = .ok w.2) : Holds (node bs d) writes := by
  intro w hw
  rw [node, h w hw]
  rfl

include hfirst hbs in
theorem lookup_of_tiers {iBlock : Bytes} {d : Disk}
    (hdirect : ∀ j < directCount, ptrAt iBlock j = if j < n then first + j else 0)
    (hsingle : ∀ o < ppb bs, walk (node bs d) (ppb bs) 1 o (ptrAt iBlock 12) =
      .ok (if directCount + o < n then some (first + (directCount + o)) else none))
    (hdouble : ∀ o < ppb bs ^ 2, walk (node bs d) (ppb bs) 2 o (ptrAt iBlock 13) =
      .ok (if directCount + ppb bs + o < n
        then some (first + (directCount + ppb bs + o)) else none))
    (htriple : ∀ o < ppb bs ^ 3, walk (node bs d) (ppb bs) 3 o (ptrAt iBlock 14) =
      .ok (if directCount + ppb bs + ppb bs ^ 2 + o < n
        then some (first + (directCount + ppb bs + ppb bs ^ 2 + o))
        else none)) (i : Nat) (hi : i < addressable bs) :
    (lookup iBlock bs i).exec d = (.ok (if i < n then some (first + i) else none), d) := by
  rw [exec_lookup hbs hi, tierOf]
  unfold addressable at hi
  by_cases h₁ : i < directCount
  · rw [if_pos h₁, walk, hdirect i h₁]
    by_cases hn : i < n
    · rw [if_pos hn, if_pos hn, if_neg (by omega)]
    · rw [if_neg hn, if_neg hn, if_pos rfl]
  · rw [if_neg h₁]
    by_cases h₂ : i < directCount + ppb bs
    · rw [if_pos h₂]
      dsimp only
      rw [hsingle _ (by omega), Nat.add_sub_cancel' (by omega)]
    · rw [if_neg h₂]
      by_cases h₃ : i < directCount + ppb bs + ppb bs ^ 2
      · rw [if_pos h₃]
        dsimp only
        rw [hdouble _ (by omega), Nat.add_sub_cancel' (by omega)]
      · rw [if_neg h₃]
        dsimp only
        rw [htriple _ (by omega), Nat.add_sub_cancel' (by omega)]

theorem tier_answer {c o offset : Nat} (hoff : c < n → offset = c) :
    (if o < n - c then some (first + offset + o) else none) =
      if c + o < n then some (first + (c + o)) else none := by
  simp only [Nat.lt_sub_iff_add_lt']
  by_cases hin : c + o < n
  · rw [if_pos hin, if_pos hin, hoff (Nat.lt_of_le_of_lt (Nat.le_add_right c o) hin), Nat.add_assoc]
  · rw [if_neg hin, if_neg hin]

include hserves hfirst hbs

theorem exec_planTiers (hdistinct : ((List.range (countIndirectBlocks n bs)).map blocks).Nodup)
    (hfit : first + n ≤ 2 ^ 32) :
    ∃ out st', (planTiers bs first allocOne).exec ⟨0, [], [], n, 0⟩ = (out, st') ∧
      st'.calls = countIndirectBlocks n bs ∧
      (if n ≤ addressable bs then ∃ plan, out = .ok plan ∧ MapsRun bs first n plan
        else out = .error (.invalidArgument
            "indirect_mut: data block count exceeds triple-indirect address space")) := by
  have hp := hbs.ppb_pos
  have hslots : directCount * 4 ≤ (List.replicate 60 (0 : UInt8)).length := by decide
  obtain ⟨iBlock, st₀, hexec₀, h₀, hlen₀, hptr₀⟩ :=
    @exec_emitNext blocks first _ directCount ⟨0, [], [], n, 0⟩ hslots hfit
  have hrem₀ : st₀.remaining = n - min n directCount := h₀.remaining
  have hoff₀ : st₀.logicalOffset = 0 + min n directCount := h₀.offset
  have hcalls₀ : st₀.calls = 0 := h₀.calls
  have hdirect : ∀ j, ptrAt iBlock j = if j < min n directCount then first + j else 0 := by
    intro j
    rw [hptr₀, ptrAt_zeros]
    rfl
  rw [List.length_replicate] at hlen₀
  have hzero : ∀ j, directCount ≤ j → ptrAt iBlock j = 0 := by
    intro j hj
    rw [hdirect, if_neg (by omega)]
  -- what is left for each tier, in numbers
  have hcount := @countIndirectBlocks_eq bs n hbs
  have hpow₁ : ppb bs ^ (0 + 1) = ppb bs := Nat.pow_one _
  have hpow₂ : ppb bs ^ (1 + 1) = ppb bs ^ 2 := rfl
  have hpow₃ : ppb bs ^ (2 + 1) = ppb bs ^ 3 := rfl
  have hr₀ : st₀.remaining = n - directCount := by omega
  have hat₀ : directCount < n → st₀.logicalOffset = directCount := by omega
  obtain ⟨iBlock₁, st₁, writes₁, hexec₁, h₁⟩ := exec_buildTier hserves hfirst hbs 12 0 iBlock
    st₀ (by omega) (by rw [hpow₁, hr₀]; omega) (by omega) (hzero 12 (by decide))
  have hlen₁ := h₁.length
  have hrem₁ := h₁.grows.remaining
  have hoff₁ := h₁.grows.offset
  have hcalls₁ := h₁.grows.calls
  rw [hpow₁] at hrem₁ hoff₁ hcalls₁
  rw [hr₀] at hcalls₁
  have hr₁ : st₁.remaining = n - directCount - ppb bs := by omega
  have hat₁ : directCount + ppb bs < n → st₁.logicalOffset = directCount + ppb bs := by omega
  obtain ⟨iBlock₂, st₂, writes₂, hexec₂, h₂⟩ := exec_buildTier hserves hfirst hbs 13 1 iBlock₁
    st₁ (by omega)
    (by rw [hpow₂, hr₁]; omega) (by omega) (by rw [h₁.others 13 (by decide), hzero 13 (by decide)])
  have hlen₂ := h₂.length
  have hrem₂ := h₂.grows.remaining
  have hoff₂ := h₂.grows.offset
  have hcalls₂ := h₂.grows.calls
  rw [hpow₂] at hrem₂ hoff₂ hcalls₂
  rw [hr₁] at hcalls₂
  have hr₂ : st₂.remaining = n - directCount - ppb bs - ppb bs ^ 2 := by omega
  have hat₂ : directCount + ppb bs + ppb bs ^ 2 < n →
      st₂.logicalOffset = directCount + ppb bs + ppb bs ^ 2 := by omega
  obtain ⟨iBlock₃, st₃, writes₃, hexec₃, h₃⟩ := exec_buildTier hserves hfirst hbs 14 2 iBlock₂
    st₂ (by omega) (by rw [hpow₃, hr₂]; omega) (by omega)
    (by rw [h₂.others 14 (by decide), h₁.others 14 (by decide), hzero 14 (by decide)])
  have hrem₃ := h₃.grows.remaining
  have hwritten₂ := h₂.written
  have hwritten₃ := h₃.written
  have hgrows := ((h₀.trans h₁.grows).trans h₂.grows).trans h₃.grows
  rw [h₁.grows.calls] at hwritten₂
  rw [h₂.grows.calls, h₁.grows.calls, Nat.add_assoc] at hwritten₃
  have hwritten := (h₁.written.append hwritten₂).append hwritten₃
  rw [hpow₃] at hrem₃
  rw [hr₀, hr₁, hr₂, hpow₁, hpow₂, hpow₃, Nat.zero_add, ← hcount] at hgrows
  rw [hcalls₀, hr₀, hr₁, hr₂, hpow₁, hpow₂, hpow₃, ← hcount] at hwritten
  have hcalls := hgrows.calls
  have hallocated := hgrows.allocated
  have hwrites := hgrows.writes
  simp only [List.nil_append, Nat.zero_add] at hcalls hallocated hwrites
  have hexec : (planTiers bs first allocOne).exec ⟨0, [], [], n, 0⟩ =
      (if 0 < st₃.remaining then
        .error (.invalidArgument
          "indirect_mut: data block count exceeds triple-indirect address space")
      else .ok ⟨iBlock₃, st₃.blockWrites, st₃.indirectBlocksAllocated⟩, st₃) := by
    rw [planTiers, Build.exec_bind_ok hexec₀, Build.exec_bind_ok hexec₁, Build.exec_bind_ok hexec₂,
      Build.exec_bind_ok hexec₃, Build.exec_get]
    split <;> rfl
  refine ⟨_, st₃, hexec, hcalls, ?_⟩
  unfold addressable
  by_cases hn : n ≤ directCount + ppb bs + ppb bs ^ 2 + ppb bs ^ 3
  · rw [if_pos hn, if_neg (by omega)]
    refine ⟨_, rfl, fun d hd => ?_, ?_, ?_⟩
    · dsimp only at hd
      have hholds := holds_of_reads hd
      rw [hwrites] at hholds
      refine lookup_of_tiers hfirst hbs (fun j hj => ?_) (fun o ho => ?_) (fun o ho => ?_)
        (fun o ho => ?_)
      · have hj' : j < 12 := hj
        rw [h₃.others j (by omega), h₂.others j (by omega), h₁.others j (by omega), hdirect]
        exact if_congr (by rw [Nat.lt_min, and_iff_left hj]) rfl rfl
      · rw [h₃.others 12 (by decide), h₂.others 12 (by decide),
          h₁.walks _ (fun w hw => hholds w (by simp [hw])) o (by rw [hpow₁]; exact ho), hr₀]
        exact congrArg Except.ok (tier_answer hat₀)
      · rw [h₃.others 13 (by decide), h₂.walks _ (fun w hw => hholds w (by simp [hw])) o ho, hr₁,
          Nat.sub_sub]
        exact congrArg Except.ok (tier_answer hat₁)
      · rw [h₃.walks _ (fun w hw => hholds w (by simp [hw])) o ho, hr₂, Nat.sub_sub, Nat.sub_sub,
          ← Nat.add_assoc]
        exact congrArg Except.ok (tier_answer hat₂)
    · dsimp only
      rw [hwrites, hallocated]
      exact hwritten
    · dsimp only
      rw [hallocated]
      rwa [← List.range_eq_range']
  · rw [if_neg hn, if_pos (by omega)]

/-- Builder, counter and lookup divide the logical blocks among the tiers alike. -/
theorem plan_contiguous_lookup
    (hdistinct : ((List.range (countIndirectBlocks n bs)).map blocks).Nodup)
    (hstart : first < 2 ^ 32) (hfit : first + n ≤ 2 ^ 32) :
    ((∃ plan, (planContiguous bs first allocOne n).1 = .ok plan) ↔ n ≤ addressable bs) ∧
    (planContiguous bs first allocOne n).2 = countIndirectBlocks n bs ∧
    (∀ plan, (planContiguous bs first allocOne n).1 = .ok plan → MapsRun bs first n plan) ∧
    ∀ (d : Disk) (earlier : List (Bytes × Nat)) (iBlock : Bytes) (i : Nat),
      (lookupCached iBlock d bs i (cacheAfter d bs earlier)).1 =
        ((lookup iBlock bs i).exec d).1 := by
  obtain ⟨out, st', hexec, hcalls, hout⟩ := exec_planTiers hserves hfirst hbs hdistinct hfit
  have hok : ¬ (¬ bs.isPowerOfTwo ∨ bs < 1024) := by
    have hlow := hbs.low
    rintro (hnot | hlt)
    · exact hnot hbs.power
    · omega
  have hplan : planContiguous bs first allocOne n = (out, st'.calls) := by
    have hp := hbs.ppb_pos
    unfold planContiguous
    dsimp only
    rw [if_neg hok, if_neg (by omega), if_neg (by omega), if_neg (by omega), hexec]
  rw [hplan]
  refine ⟨?_, hcalls, fun plan heq => ?_, fun d earlier iBlock i =>
    lookupCached_after earlier iBlock i⟩
  · by_cases hn : n ≤ addressable bs
    · rw [if_pos hn] at hout
      obtain ⟨plan, heq, -⟩ := hout
      exact ⟨fun _ => hn, fun _ => ⟨plan, heq⟩⟩
    · rw [if_neg hn] at hout
      refine ⟨fun ⟨plan, heq⟩ => ?_, fun h => absurd h hn⟩
      rw [hout] at heq
      cases heq
  · by_cases hn : n ≤ addressable bs
    · rw [if_pos hn] at hout
      obtain ⟨plan', heq', hmaps⟩ := hout
      rw [show (out, st'.calls).1 = out from rfl, heq'] at heq
      rw [← Except.ok.inj heq]
      exact hmaps
    · rw [if_neg hn] at hout
      rw [show (out, st'.calls).1 = out from rfl, hout] at heq
      cases heq

end Contiguous

theorem blockSize_1024 : BlockSize 1024 := ⟨⟨10, rfl⟩, by decide, by decide⟩

theorem serves_from {base calls : Nat} (hbase : 0 < base) (hfit : base + calls ≤ 2 ^ 32) :
    Serves (fun k => .ok (base + k)) (fun k => base + k) calls where
  answers := fun _ _ => rfl
  nonzero := fun _ _ => by omega
  fits := fun _ hk => by omega

/-- Thirteen blocks: the last is behind a pointer block. -/
theorem plan_contiguous_lookup_thirteen : ∃ plan,
    (planContiguous 1024 10 (fun k => .ok (100 + k)) 13).1 = .ok plan ∧
    MapsRun 1024 10 13 plan := by
  have hserves : Serves (fun k => .ok (100 + k)) (fun k => 100 + k) (countIndirectBlocks 13 1024) :=
    serves_from (by decide) (by decide)
  obtain ⟨hok, -, hmaps, -⟩ := plan_contiguous_lookup hserves (show 0 < 10 by decide)
    blockSize_1024 (by decide) (by decide) (by decide)
  obtain ⟨plan, heq⟩ := hok.mpr (by decide)
  exact ⟨plan, heq, hmaps plan heq⟩

/-- No data blocks at all, but a first block that no pointer can hold. -/
theorem empty_run_refused : ¬ ∀ (bs first n : Nat) (allocOne : Nat → Result Nat)
    (blocks : Nat → Nat), BlockSize bs → 0 < first → first + n ≤ 2 ^ 32 → Serves allocOne blocks
      (countIndirectBlocks n bs) →
      ((∃ plan, (planContiguous bs first allocOne n).1 = .ok plan) ↔ n ≤ addressable bs) := by
  intro hclaim
  have hiff := hclaim 1024 (2 ^ 32) 0 (fun k => .ok (1 + k)) (fun k => 1 + k) blockSize_1024
    (by decide) (by decide)
    (serves_from (by decide) (by decide))
  obtain ⟨plan, heq⟩ := hiff.mpr (Nat.zero_le _)
  have hpower : ¬ (¬ (1024 : Nat).isPowerOfTwo ∨ 1024 < 1024) := by
    rintro (hnot | hlt)
    · exact hnot blockSize_1024.power
    · omega
  unfold planContiguous at heq
  rw [if_neg hpower, if_neg (by decide)] at heq
  dsimp only at heq
  rw [if_neg (by decide), if_pos (by decide)] at heq
  cases heq

end FsExt4.Indirect
