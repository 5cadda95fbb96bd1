import FsExt4.Lib.Crash

namespace FsExt4

open Lib

/-- The refusals of the modelled functions, and `panicked` for an index past the end of a buffer,
where the source stops. -/
inductive Error where
  | panicked
  | io
  | badChecksum (what : String)
  | unsupportedIncompat (bits : UInt32)
  | notFound
  | notADirectory
  | isADirectory
  | alreadyExists
  | directoryNotEmpty
  | readOnly
  | nameTooLong
  | noSpaceLeftOnDevice
  | invalidArgument (msg : String)
  | invalidInode (ino : UInt32)
  | invalidBlock (block : Nat)
  | outOfBounds
  | corruptExtentTree (msg : String)
  | corruptDirEntry (msg : String)
  | corrupt (msg : String)
  | tooManyLinks
  | unsupported (msg : String)
  | stale
  deriving DecidableEq

instance : IoFault Error := ⟨.io⟩

abbrev Result (α : Type) := Except Error α

abbrev DevIo (α : Type) := Io Error α

theorem Result.bind_eq_ok {α β : Type} {x : Result α} {f : α → Result β} {b : β}
    (h : (x >>= f) = .ok b) : ∃ a, x = .ok a ∧ f a = .ok b := by
  cases x with
  | error e => cases h
  | ok a => exact ⟨a, rfl, h⟩

theorem Result.ok_bind {α β : Type} (a : α) (f : α → Result β) :
    ((Except.ok a : Result α) >>= f) = f a := rfl

/-- A success, with a value that has the property. -/
inductive Result.Ends {α : Type} (p : α → Prop) : Result α → Prop where
  | ok (a : α) (h : p a) : Result.Ends p (.ok a)

instance {α : Type} (p : α → Prop) [DecidablePred p] (r : Result α) :
    Decidable (Result.Ends p r) :=
  match r with
  | .ok a => decidable_of_iff (p a) ⟨.ok a, fun h => match h with | .ok _ h => h⟩
  | .error _ => isFalse nofun

theorem Result.Ends.exists_ok {α : Type} {r : Result α} {p : α → Prop} (h : r.Ends p) :
    ∃ a, r = .ok a ∧ p a := by
  cases h with
  | ok a h => exact ⟨a, rfl, h⟩

def readAt (off len : Nat) : DevIo Bytes := .readAt off len .done

def writeAt (off : Nat) (data : Bytes) : DevIo Unit := .writeAt off data .done

def flush : DevIo Unit := .flush .done

def populateCache (block : Nat) (bytes : Bytes) : DevIo Unit :=
  .populateCache block bytes (.done (.ok ()))

theorem exec_readAt (d : Disk) (off len : Nat) (h : off + len ≤ d.size) :
    (readAt off len).exec d = (.ok (d.img.read off len), d) := by
  simp [readAt, Io.exec, BlockDevice.readAt, h]

theorem exec_readAt_past (d : Disk) (off len : Nat) (h : ¬ off + len ≤ d.size) :
    (readAt off len).exec d = (.error .io, d) := by
  simp [readAt, Io.exec, BlockDevice.readAt, h, IoFault.fault]

theorem exec_writeAt (d : Disk) (off : Nat) (data : Bytes) (h : off + data.length ≤ d.size) :
    (writeAt off data).exec d = (.ok (), { d with img := d.img.write off data }) := by
  simp [writeAt, Io.exec, BlockDevice.writeAt, h]

theorem exec_writeAt_past (d : Disk) (off : Nat) (data : Bytes) (h : ¬ off + data.length ≤ d.size) :
    (writeAt off data).exec d = (.error .io, d) := by
  simp [writeAt, Io.exec, BlockDevice.writeAt, h, IoFault.fault]

@[simp] theorem exec_flush (d : Disk) : flush.exec d = (.ok (), d) := rfl

@[simp] theorem trace_readAt (d : Disk) (off len : Nat) : (readAt off len).trace d = [] := rfl

theorem trace_writeAt (d : Disk) (off : Nat) (data : Bytes) (h : off + data.length ≤ d.size) :
    (writeAt off data).trace d = [.write off data] := by
  simp [writeAt, Io.trace, h]

theorem trace_writeAt_past (d : Disk) (off : Nat) (data : Bytes)
    (h : ¬ off + data.length ≤ d.size) : (writeAt off data).trace d = [] := by
  simp [writeAt, Io.trace, h]

@[simp] theorem trace_flush (d : Disk) : flush.trace d = [.flush] := rfl

theorem readAt_runs (d : Disk) (off len : Nat) (h : off + len ≤ d.size) :
    (readAt off len).Runs d (d.img.read off len) [] :=
  ⟨exec_readAt d off len h, rfl⟩

theorem writeAt_runs (d : Disk) (off : Nat) (data : Bytes) (h : off + data.length ≤ d.size) :
    (writeAt off data).Runs d () [.write off data] :=
  ⟨exec_writeAt d off data h, trace_writeAt d off data h⟩

theorem flush_runs (d : Disk) : flush.Runs d () [.flush] := ⟨rfl, rfl⟩

section Keeps

variable {lo n : Nat} {α : Type}

theorem flush_keeps : flush.Keeps lo n := fun _ => rfl

theorem writeAt_keeps (off : Nat) (data : Bytes)
    (h : lo + n ≤ off ∨ off + data.length ≤ lo) : (writeAt off data).Keeps lo n := by
  intro d
  by_cases hfit : off + data.length ≤ d.size
  · rw [exec_writeAt d off data hfit]
    exact Image.read_write_disjoint _ _ _ _ _ h
  · rw [exec_writeAt_past d off data hfit]

theorem readAt_bind_keeps (off len : Nat) {f : Bytes → DevIo α}
    (h : ∀ b, b.length = len → (f b).Keeps lo n) : (readAt off len >>= f).Keeps lo n := by
  intro d
  by_cases hfit : off + len ≤ d.size
  · rw [Io.exec_bind_ok _ _ _ _ _ (exec_readAt d off len hfit)]
    exact h _ (Image.length_read _ _ _) d
  · rw [Io.exec_bind_error _ _ _ _ _ (exec_readAt_past d off len hfit)]

end Keeps

end FsExt4
