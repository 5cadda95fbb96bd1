import FsExt4.Lib.Image
import Mathlib.Order.Basic

namespace FsExt4.Lib

/-- A program over a block device: each device call hands its answer to the rest. -/
inductive Io (ε α : Type) : Type where
  | done (r : Except ε α)
  | readAt (off len : Nat) (k : Except ε Bytes → Io ε α)
  | writeAt (off : Nat) (data : Bytes) (k : Except ε Unit → Io ε α)
  | flush (k : Except ε Unit → Io ε α)
  | populateCache (block : Nat) (bytes : Bytes) (k : Io ε α)

variable {ε α β δ : Type}

namespace Io

protected def bind : Io ε α → (α → Io ε β) → Io ε β
  | done (.ok a), f => f a
  | done (.error e), _ => done (.error e)
  | readAt off len k, f => readAt off len (fun r => (k r).bind f)
  | writeAt off data k, f => writeAt off data (fun r => (k r).bind f)
  | flush k, f => flush (fun r => (k r).bind f)
  | populateCache block bytes k, f => populateCache block bytes (k.bind f)

instance : Monad (Io ε) where
  pure a := done (.ok a)
  bind := Io.bind

def fail (e : ε) : Io ε α := done (.error e)

/-- The outcome of a program as a value, so that the rest runs either way. -/
def attempt : Io ε α → Io ε (Except ε α)
  | done r => done (.ok r)
  | readAt off len k => readAt off len (fun r => (k r).attempt)
  | writeAt off data k => writeAt off data (fun r => (k r).attempt)
  | flush k => flush (fun r => (k r).attempt)
  | populateCache block bytes k => populateCache block bytes k.attempt

instance : MonadLift (Except ε) (Io ε) where
  monadLift := done

end Io

/-- The calls of a block device, each with the device it leaves behind. -/
class BlockDevice (ε δ : Type) where
  readAt : Nat → Nat → δ → Except ε Bytes × δ
  writeAt : Nat → Bytes → δ → Except ε Unit × δ
  flush : δ → Except ε Unit × δ
  populateCache : Nat → Bytes → δ → δ

def Io.exec [BlockDevice ε δ] : Io ε α → δ → Except ε α × δ
  | done r, d => (r, d)
  | readAt off len k, d =>
    let r : Except ε Bytes × δ := BlockDevice.readAt off len d
    (k r.1).exec r.2
  | writeAt off data k, d =>
    let r : Except ε Unit × δ := BlockDevice.writeAt off data d
    (k r.1).exec r.2
  | flush k, d =>
    let r : Except ε Unit × δ := BlockDevice.flush d
    (k r.1).exec r.2
  | populateCache block bytes k, d => k.exec (BlockDevice.populateCache ε block bytes d)

namespace Io

section Exec

variable [BlockDevice ε δ]

@[simp] theorem exec_done (r : Except ε α) (d : δ) : (done r : Io ε α).exec d = (r, d) := rfl

@[simp] theorem exec_pure (a : α) (d : δ) : (pure a : Io ε α).exec d = (.ok a, d) := rfl

@[simp] theorem exec_fail (e : ε) (d : δ) : (fail e : Io ε α).exec d = (.error e, d) := rfl

theorem exec_bind (x : Io ε α) (f : α → Io ε β) (d : δ) :
    (x >>= f).exec d =
      match x.exec d with
      | (.ok a, d') => (f a).exec d'
      | (.error e, d') => (.error e, d') := by
  change (Io.bind x f).exec d = _
  induction x generalizing d with
  | done r => cases r <;> rfl
  | readAt off len k ih => exact ih _ _
  | writeAt off data k ih => exact ih _ _
  | flush k ih => exact ih _ _
  | populateCache block bytes k ih => exact ih _

theorem bind_assoc {γ : Type} (x : Io ε α) (f : α → Io ε β) (g : β → Io ε γ) :
    (x >>= f) >>= g = x >>= fun a => f a >>= g := by
  induction x with
  | done r => cases r <;> rfl
  | readAt off len k ih => exact congrArg (Io.readAt off len) (funext ih)
  | writeAt off data k ih => exact congrArg (Io.writeAt off data) (funext ih)
  | flush k ih => exact congrArg Io.flush (funext ih)
  | populateCache block bytes k ih => exact congrArg (Io.populateCache block bytes) ih

theorem exec_bind_ok (x : Io ε α) (f : α → Io ε β) (d d' : δ) (a : α)
    (h : x.exec d = (.ok a, d')) : (x >>= f).exec d = (f a).exec d' := by
  rw [exec_bind, h]

theorem exec_bind_error (x : Io ε α) (f : α → Io ε β) (d d' : δ) (e : ε)
    (h : x.exec d = (.error e, d')) : (x >>= f).exec d = (.error e, d') := by
  rw [exec_bind, h]

theorem exec_bind_eq_ok (x : Io ε α) (f : α → Io ε β) (d d' : δ) (b : β)
    (h : (x >>= f).exec d = (.ok b, d')) :
    ∃ a d₁, x.exec d = (.ok a, d₁) ∧ (f a).exec d₁ = (.ok b, d') := by
  rw [exec_bind] at h
  rcases hx : x.exec d with ⟨r, d₁⟩
  rw [hx] at h
  cases r with
  | ok a => exact ⟨a, d₁, rfl, h⟩
  | error e => exact absurd (Prod.mk.inj h).1 (by simp)

theorem exec_attempt (x : Io ε α) (d : δ) :
    x.attempt.exec d = (.ok (x.exec d).1, (x.exec d).2) := by
  induction x generalizing d with
  | done r => rfl
  | readAt off len k ih => exact ih _ _
  | writeAt off data k ih => exact ih _ _
  | flush k ih => exact ih _ _
  | populateCache block bytes k ih => exact ih _

@[simp] theorem exec_liftM (r : Except ε α) (d : δ) :
    (liftM r : Io ε α).exec d = (r, d) := rfl

def reads : Io ε α → δ → List Nat
  | done _, _ => []
  | readAt off len k, d =>
    let r : Except ε Bytes × δ := BlockDevice.readAt off len d
    off :: (k r.1).reads r.2
  | writeAt off data k, d =>
    let r : Except ε Unit × δ := BlockDevice.writeAt off data d
    (k r.1).reads r.2
  | flush k, d =>
    let r : Except ε Unit × δ := BlockDevice.flush d
    (k r.1).reads r.2
  | populateCache block bytes k, d => k.reads (BlockDevice.populateCache ε block bytes d)

theorem reads_bind (x : Io ε α) (f : α → Io ε β) (d : δ) :
    (x >>= f).reads d = x.reads d ++
      match x.exec d with
      | (.ok a, d') => (f a).reads d'
      | (.error _, _) => [] := by
  change (Io.bind x f).reads d = _
  induction x generalizing d with
  | done r => cases r <;> rfl
  | readAt off len k ih => exact congrArg (off :: ·) (ih _ _)
  | writeAt off data k ih => exact ih _ _
  | flush k ih => exact ih _ _
  | populateCache block bytes k ih => exact ih _

@[simp] theorem reads_liftM (r : Except ε α) (d : δ) : (liftM r : Io ε α).reads d = [] := rfl

theorem length_reads_bind_le (x : Io ε α) (f : α → Io ε β) (d : δ) {m k : Nat}
    (hx : (x.reads d).length ≤ m) (hf : ∀ (a : α) (d' : δ), ((f a).reads d').length ≤ k) :
    ((x >>= f).reads d).length ≤ m + k := by
  rw [reads_bind, List.length_append]
  obtain ⟨r, d'⟩ := x.exec d
  cases r with
  | ok a => exact Nat.add_le_add hx (hf a d')
  | error e => exact Nat.add_le_add hx (Nat.zero_le k)

end Exec

end Io

namespace Io

def ReadsBlocks (bs : Nat) : Io ε α → Prop
  | done _ => True
  | readAt off len k => off % bs = 0 ∧ len = bs ∧ ∀ r, (k r).ReadsBlocks bs
  | writeAt _ _ _ => False
  | flush _ => False
  | populateCache _ _ _ => False

variable {bs : Nat}

theorem ReadsBlocks.done (r : Except ε α) : (done r : Io ε α).ReadsBlocks bs := trivial

theorem ReadsBlocks.bind {x : Io ε α} {f : α → Io ε β} (hx : x.ReadsBlocks bs)
    (hf : ∀ a, (f a).ReadsBlocks bs) : (x >>= f).ReadsBlocks bs := by
  change (Io.bind x f).ReadsBlocks bs
  induction x with
  | done r =>
    cases r with
    | ok a => exact hf a
    | error e => trivial
  | readAt off len k ih => exact ⟨hx.1, hx.2.1, fun r => ih r (hx.2.2 r)⟩
  | writeAt off data k => exact hx.elim
  | flush k => exact hx.elim
  | populateCache block bytes k => exact hx.elim

end Io

class IoFault (ε : Type) where
  fault : ε

/-- A plain disk: a call inside it succeeds, a call past its end fails and does nothing. -/
structure Disk where
  size : Nat
  img : Image

instance [IoFault ε] : BlockDevice ε Disk where
  readAt off len d := if off + len ≤ d.size then (.ok (d.img.read off len), d)
    else (.error IoFault.fault, d)
  writeAt off data d := if off + data.length ≤ d.size then
      (.ok (), { d with img := d.img.write off data })
    else (.error IoFault.fault, d)
  flush d := (.ok (), d)
  populateCache _ _ d := d

inductive Ev where
  | write (off : Nat) (data : Bytes)
  | flush
  deriving DecidableEq

namespace Io

def trace [IoFault ε] : Io ε α → Disk → List Ev
  | done _, _ => []
  | readAt off len k, d => (k (BlockDevice.readAt off len d).1).trace d
  | writeAt off data k, d =>
    if off + data.length ≤ d.size then
      .write off data :: (k (.ok ())).trace { d with img := d.img.write off data }
    else (k (.error IoFault.fault)).trace d
  | flush k, d => .flush :: (k (.ok ())).trace d
  | populateCache _ _ k, d => k.trace d

variable [IoFault ε]

theorem disk_readAt_snd (off len : Nat) (d : Disk) :
    (@BlockDevice.readAt ε Disk _ off len d).2 = d := by
  simp only [BlockDevice.readAt]
  split <;> rfl

theorem ReadsBlocks.exec_snd {bs : Nat} {x : Io ε α} (hx : x.ReadsBlocks bs) (d : Disk) :
    (x.exec d).2 = d := by
  induction x with
  | done r => rfl
  | readAt off len k ih =>
    have hd := @disk_readAt_snd ε _ off len d
    change ((k (@BlockDevice.readAt ε Disk _ off len d).1).exec
      (@BlockDevice.readAt ε Disk _ off len d).2).2 = d
    rw [hd]
    exact ih _ (hx.2.2 _)
  | writeAt off data k => exact hx.elim
  | flush k => exact hx.elim
  | populateCache block bytes k => exact hx.elim

theorem trace_bind (x : Io ε α) (f : α → Io ε β) (d : Disk) :
    (x >>= f).trace d = x.trace d ++
      match x.exec d with
      | (.ok a, d') => (f a).trace d'
      | (.error _, _) => [] := by
  change (Io.bind x f).trace d = _
  induction x generalizing d with
  | done r => cases r <;> rfl
  | readAt off len k ih =>
    simp only [Io.bind, trace, exec, disk_readAt_snd, ih]
  | writeAt off data k ih =>
    by_cases h : off + data.length ≤ d.size
    · simp only [Io.bind, trace, exec, BlockDevice.writeAt, if_pos h, ih, List.cons_append]
    · simp only [Io.bind, trace, exec, BlockDevice.writeAt, if_neg h, ih]
  | flush k ih => simp only [Io.bind, trace, exec, BlockDevice.flush, ih, List.cons_append]
  | populateCache block bytes k ih =>
    simp only [Io.bind, trace, exec, BlockDevice.populateCache, ih]

theorem trace_bind_ok (x : Io ε α) (f : α → Io ε β) (d d' : Disk) (a : α)
    (h : x.exec d = (.ok a, d')) : (x >>= f).trace d = x.trace d ++ (f a).trace d' := by
  rw [trace_bind, h]

theorem trace_bind_error (x : Io ε α) (f : α → Io ε β) (d d' : Disk) (e : ε)
    (h : x.exec d = (.error e, d')) : (x >>= f).trace d = x.trace d := by
  rw [trace_bind, h, List.append_nil]

end Io

namespace Io

variable [IoFault ε]

theorem exec_size (x : Io ε α) (d : Disk) : (x.exec d).2.size = d.size := by
  induction x generalizing d with
  | done r => rfl
  | readAt off len k ih =>
    change ((k _).exec (@BlockDevice.readAt ε Disk _ off len d).2).2.size = d.size
    rw [ih, disk_readAt_snd]
  | writeAt off data k ih =>
    have hsize : (@BlockDevice.writeAt ε Disk _ off data d).2.size = d.size := by
      simp only [BlockDevice.writeAt]
      split <;> rfl
    exact (ih _ _).trans hsize
  | flush k ih => exact ih _ d
  | populateCache block bytes k ih => exact ih d

def Keeps (lo n : Nat) (x : Io ε α) : Prop :=
  ∀ d : Disk, (x.exec d).2.img.read lo n = d.img.read lo n

section Keeps

variable {lo n : Nat}

theorem Keeps.pure (a : α) : (Pure.pure a : Io ε α).Keeps lo n := fun _ => rfl

theorem Keeps.fail (e : ε) : (Io.fail e : Io ε α).Keeps lo n := fun _ => rfl

theorem Keeps.bind {x : Io ε α} {f : α → Io ε β} (hx : x.Keeps lo n)
    (hf : ∀ a, (f a).Keeps lo n) : (x >>= f).Keeps lo n := by
  intro d
  have hd := hx d
  rw [exec_bind]
  rcases hr : x.exec d with ⟨r, d'⟩
  rw [hr] at hd
  cases r with
  | ok a => exact (hf a d').trans hd
  | error e => exact hd

end Keeps

end Io

end FsExt4.Lib
