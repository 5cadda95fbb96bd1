import FsExt4.Lib.Io

namespace FsExt4.Lib

variable {ε α β δ : Type}

structure Reliable (ε δ : Type) [BlockDevice ε δ] : Prop where
  writeAt : ∀ (off : Nat) (data : Bytes) (d : δ),
    (BlockDevice.writeAt off data d : Except ε Unit × δ).1 = .ok ()
  flush : ∀ d : δ, (BlockDevice.flush d : Except ε Unit × δ).1 = .ok ()

namespace Io

section Writes

variable [BlockDevice ε δ]

def writes : Io ε α → δ → List (Nat × Bytes)
  | done _, _ => []
  | readAt off len k, d =>
    let r : Except ε Bytes × δ := BlockDevice.readAt off len d
    (k r.1).writes r.2
  | writeAt off data k, d =>
    let r : Except ε Unit × δ := BlockDevice.writeAt off data d
    (off, data) :: (k r.1).writes r.2
  | flush k, d =>
    let r : Except ε Unit × δ := BlockDevice.flush d
    (k r.1).writes r.2
  | populateCache block bytes k, d => k.writes (BlockDevice.populateCache ε block bytes d)

theorem writes_bind (x : Io ε α) (f : α → Io ε β) (d : δ) :
    (x >>= f).writes d = x.writes d ++
      match x.exec d with
      | (.ok a, d') => (f a).writes d'
      | (.error _, _) => [] := by
  change (Io.bind x f).writes d = _
  induction x generalizing d with
  | done r => cases r <;> rfl
  | readAt off len k ih => exact ih _ _
  | writeAt off data k ih => exact congrArg ((off, data) :: ·) (ih _ _)
  | flush k ih => exact ih _ _
  | populateCache block bytes k ih => exact ih _

end Writes

/-- The program only writes and flushes, and has no failure of its own. -/
def OnlyWrites : Io ε α → Prop
  | done (.ok _) => True
  | done (.error _) => False
  | readAt _ _ _ => False
  | writeAt _ _ k => (k (.ok ())).OnlyWrites
  | flush k => (k (.ok ())).OnlyWrites
  | populateCache _ _ _ => False

def ChecksFirst (x : Io ε α) : Prop := x.OnlyWrites ∨ ∃ e, x = fail e

theorem OnlyWrites.pure (a : α) : (pure a : Io ε α).OnlyWrites := trivial

theorem OnlyWrites.bind {x : Io ε α} {f : α → Io ε β} (hx : x.OnlyWrites)
    (hf : ∀ a, (f a).OnlyWrites) : (x >>= f).OnlyWrites := by
  change (Io.bind x f).OnlyWrites
  induction x with
  | done r =>
    cases r with
    | ok a => exact hf a
    | error e => exact hx.elim
  | readAt off len k => exact hx.elim
  | writeAt off data k ih => exact ih _ hx
  | flush k ih => exact ih _ hx
  | populateCache block bytes k => exact hx.elim

theorem OnlyWrites.ok_bind (a : α) {f : α → Io ε β} (hf : (f a).OnlyWrites) :
    (liftM (.ok a : Except ε α) >>= f : Io ε β).OnlyWrites := hf

theorem OnlyWrites.exec_ok [BlockDevice ε δ] {x : Io ε α} (hx : x.OnlyWrites)
    (hdev : Reliable ε δ) (d : δ) :
    ∃ a, (x.exec d).1 = .ok a := by
  induction x generalizing d with
  | done r =>
    cases r with
    | ok a => exact ⟨a, rfl⟩
    | error e => exact hx.elim
  | readAt off len k => exact hx.elim
  | writeAt off data k ih =>
    rw [exec, hdev.writeAt]
    exact ih _ hx _
  | flush k ih =>
    rw [exec, hdev.flush]
    exact ih _ hx _
  | populateCache block bytes k => exact hx.elim

theorem ChecksFirst.fail (e : ε) : (fail e : Io ε α).ChecksFirst := .inr ⟨e, rfl⟩

theorem ChecksFirst.liftM_bind (r : Except ε α) {f : α → Io ε β} (hf : ∀ a, (f a).ChecksFirst) :
    (liftM r >>= f : Io ε β).ChecksFirst := by
  cases r with
  | ok a => exact hf a
  | error e => exact .fail e

theorem ChecksFirst.writes_eq_nil [BlockDevice ε δ] {x : Io ε α} (hx : x.ChecksFirst)
    (hdev : Reliable ε δ) {d d' : δ} {e : ε} (h : x.exec d = (.error e, d')) : x.writes d = [] := by
  obtain hwrites | ⟨e', rfl⟩ := hx
  · obtain ⟨a, ha⟩ := hwrites.exec_ok hdev d
    rw [h] at ha
    cases ha
  · rfl

end Io

instance : BlockDevice ε Image where
  readAt off len img := (.ok (img.read off len), img)
  writeAt off data img := (.ok (), img.write off data)
  flush img := (.ok (), img)
  populateCache _ _ img := img

theorem Image.reliable : Reliable ε Image := ⟨fun _ _ _ => rfl, fun _ => rfl⟩

end FsExt4.Lib
