import FsExt4.Lib.Io

namespace FsExt4.Lib

variable {ε α β : Type} [IoFault ε]

def Disk.after (d : Disk) : List Ev → Disk
  | [] => d
  | .write off data :: evs => Disk.after { d with img := d.img.write off data } evs
  | .flush :: evs => d.after evs

@[simp] theorem Disk.size_after (d : Disk) (evs : List Ev) : (d.after evs).size = d.size := by
  induction evs generalizing d with
  | nil => rfl
  | cons ev rest ih =>
    cases ev with
    | write off data => exact ih _
    | flush => exact ih d

theorem Disk.after_append (d : Disk) (evs evs' : List Ev) :
    d.after (evs ++ evs') = (d.after evs).after evs' := by
  induction evs generalizing d with
  | nil => rfl
  | cons ev rest ih =>
    cases ev with
    | write off data => exact ih _
    | flush => exact ih d

def writeEvs (ws : List (Nat × Bytes)) : List Ev := ws.map (fun w => .write w.1 w.2)

theorem Disk.after_writeEvs (d : Disk) (ws : List (Nat × Bytes)) :
    d.after (writeEvs ws) = { d with img := d.img.writeAll ws } := by
  induction ws generalizing d with
  | nil => rfl
  | cons w rest ih => exact ih { d with img := d.img.write w.1 w.2 }

namespace Io

/-- The program succeeds on the disk with `a`, and `evs` is what reached it. -/
structure Runs (x : Io ε α) (d : Disk) (a : α) (evs : List Ev) : Prop where
  exec : x.exec d = (.ok a, d.after evs)
  trace : x.trace d = evs

theorem Runs.pure (a : α) (d : Disk) : (Pure.pure a : Io ε α).Runs d a [] := ⟨rfl, rfl⟩

theorem Runs.liftM (a : α) (d : Disk) : (liftM (Except.ok a : Except ε α) : Io ε α).Runs d a [] :=
  ⟨rfl, rfl⟩

theorem Runs.bind {x : Io ε α} {f : α → Io ε β} {d : Disk} {a : α} {b : β} {evs evs' : List Ev}
    (hx : x.Runs d a evs) (hf : (f a).Runs (d.after evs) b evs') :
    (x >>= f).Runs d b (evs ++ evs') := by
  constructor
  · rw [exec_bind_ok _ _ _ _ _ hx.exec, hf.exec, Disk.after_append]
  · rw [trace_bind_ok _ _ _ _ _ hx.exec, hx.trace, hf.trace]

theorem Runs.bind_silent {x : Io ε α} {f : α → Io ε β} {d : Disk} {a : α} {b : β} {evs : List Ev}
    (hx : x.Runs d a []) (hf : (f a).Runs d b evs) : (x >>= f).Runs d b evs := hx.bind hf

theorem trace_attempt (x : Io ε α) (d : Disk) : x.attempt.trace d = x.trace d := by
  induction x generalizing d with
  | done r => rfl
  | readAt off len k ih => exact ih _ d
  | writeAt off data k ih =>
    simp only [attempt, trace]
    split
    · rw [ih]
    · rw [ih]
  | flush k ih => simp only [attempt, trace, ih]
  | populateCache block bytes k ih => exact ih d

theorem Runs.attempt {x : Io ε α} {d : Disk} {a : α} {evs : List Ev} (hx : x.Runs d a evs) :
    x.attempt.Runs d (.ok a) evs := by
  constructor
  · rw [exec_attempt, hx.exec]
  · rw [trace_attempt, hx.trace]

theorem ReadsBlocks.trace_eq {bs : Nat} {x : Io ε α} (hx : x.ReadsBlocks bs) (d : Disk) :
    x.trace d = [] := by
  induction x with
  | done r => rfl
  | readAt off len k ih => exact ih _ (hx.2.2 _)
  | writeAt off data k => exact hx.elim
  | flush k => exact hx.elim
  | populateCache block bytes k => exact hx.elim

theorem ReadsBlocks.runs {bs : Nat} {x : Io ε α} (hx : x.ReadsBlocks bs) {d : Disk} {a : α}
    (h : x.exec d = (.ok a, d)) : x.Runs d a [] := ⟨h, hx.trace_eq d⟩

end Io

/-- The images a crash may leave of a device that holds `durable`, has `pending` writes since its
last flush and is still to see the events: every flushed write, and any of the others. -/
inductive CrashImage : Image → List (Nat × Bytes) → List Ev → Image → Prop where
  | crash (durable : Image) (pending kept : List (Nat × Bytes)) (evs : List Ev)
      (h : kept.Sublist pending) : CrashImage durable pending evs (durable.writeAll kept)
  | write (durable : Image) (pending : List (Nat × Bytes)) (off : Nat) (data : Bytes)
      (evs : List Ev) (img : Image) (h : CrashImage durable (pending ++ [(off, data)]) evs img) :
      CrashImage durable pending (.write off data :: evs) img
  | flush (durable : Image) (pending : List (Nat × Bytes)) (evs : List Ev) (img : Image)
      (h : CrashImage (durable.writeAll pending) [] evs img) :
      CrashImage durable pending (.flush :: evs) img

theorem CrashImage.nil_cases {durable img : Image} {pending : List (Nat × Bytes)}
    (h : CrashImage durable pending [] img) :
    ∃ kept, kept.Sublist pending ∧ img = durable.writeAll kept := by
  cases h with
  | crash _ _ kept _ h => exact ⟨kept, h, rfl⟩

theorem CrashImage.epoch_cases {durable img : Image} {pending ws : List (Nat × Bytes)}
    {rest : List Ev} (h : CrashImage durable pending (writeEvs ws ++ .flush :: rest) img) :
    (∃ kept, kept.Sublist (pending ++ ws) ∧ img = durable.writeAll kept) ∨
      CrashImage (durable.writeAll (pending ++ ws)) [] rest img := by
  induction ws generalizing pending with
  | nil =>
    rw [List.append_nil]
    cases h with
    | crash _ _ kept _ h => exact Or.inl ⟨kept, h, rfl⟩
    | flush _ _ _ _ h => exact Or.inr h
  | cons w ws ih =>
    cases h with
    | crash _ _ kept _ h => exact Or.inl ⟨kept, h.trans (List.sublist_append_left _ _), rfl⟩
    | write _ _ _ _ _ _ h =>
      have hassoc : pending ++ [(w.1, w.2)] ++ ws = pending ++ w :: ws := by simp
      rw [← hassoc]
      exact ih h

theorem CrashImage.past_writes {durable img : Image} {pending ws : List (Nat × Bytes)}
    {rest : List Ev} (h : CrashImage durable (pending ++ ws) rest img) :
    CrashImage durable pending (writeEvs ws ++ rest) img := by
  induction ws generalizing pending with
  | nil =>
    rw [List.append_nil] at h
    exact h
  | cons w ws ih =>
    refine .write durable pending w.1 w.2 _ img (ih ?_)
    rwa [List.append_assoc, List.singleton_append]

theorem CrashImage.of_epoch {durable : Image} {ws kept : List (Nat × Bytes)} {rest : List Ev}
    (hk : kept.Sublist ws) : CrashImage durable [] (writeEvs ws ++ rest) (durable.writeAll kept) :=
  CrashImage.past_writes (.crash durable ([] ++ ws) kept rest hk)

theorem CrashImage.past_epoch {durable img : Image} {ws : List (Nat × Bytes)} {rest : List Ev}
    (h : CrashImage (durable.writeAll ws) [] rest img) :
    CrashImage durable [] (writeEvs ws ++ ([.flush] ++ rest)) img :=
  CrashImage.past_writes (.flush durable ([] ++ ws) rest img h)

/-- The events of stages written one after another, each flushed unless it is empty. -/
def stageEvs : List (List (Nat × Bytes)) → List Ev
  | [] => []
  | s :: rest => (if s.isEmpty then [] else writeEvs s ++ [.flush]) ++ stageEvs rest

theorem CrashImage.of_isPrefix {durable img : Image} {pending : List (Nat × Bytes)}
    {evs evs' : List Ev} (h : CrashImage durable pending evs img) (hp : evs <+: evs') :
    CrashImage durable pending evs' img := by
  induction h generalizing evs' with
  | crash durable pending kept evs hk => exact .crash durable pending kept evs' hk
  | write durable pending off data evs img h ih =>
    obtain ⟨t, rfl⟩ := hp
    exact .write durable pending off data (evs ++ t) img (ih (List.prefix_append evs t))
  | flush durable pending evs img h ih =>
    obtain ⟨t, rfl⟩ := hp
    exact .flush durable pending (evs ++ t) img (ih (List.prefix_append evs t))

theorem CrashImage.stage_cases {durable img : Image} {stages : List (List (Nat × Bytes))}
    (h : CrashImage durable [] (stageEvs stages) img) :
    ∃ done rest kept, stages = done ++ rest ∧ kept.Sublist (rest.headD []) ∧
      img = durable.writeAll (done.flatten ++ kept) := by
  induction stages generalizing durable with
  | nil =>
    obtain ⟨kept, hkept, rfl⟩ := h.nil_cases
    exact ⟨[], [], kept, rfl, hkept, rfl⟩
  | cons s rest ih =>
    rw [stageEvs] at h
    by_cases hs : s.isEmpty
    · rw [if_pos hs] at h
      obtain ⟨done, rest', kept, rfl, hkept, rfl⟩ := ih h
      refine ⟨s :: done, rest', kept, rfl, hkept, ?_⟩
      rw [List.flatten_cons, List.isEmpty_iff.mp hs, List.nil_append]
    · rw [if_neg hs, List.append_assoc, List.singleton_append] at h
      obtain ⟨kept, hkept, rfl⟩ | h := h.epoch_cases
      · exact ⟨[], s :: rest, kept, rfl, hkept, rfl⟩
      · obtain ⟨done, rest', kept, rfl, hkept, rfl⟩ := ih h
        refine ⟨s :: done, rest', kept, rfl, hkept, ?_⟩
        rw [List.nil_append, List.flatten_cons, List.append_assoc, Image.writeAll_append _ s]

theorem CrashImage.of_stages (durable : Image) (done : List (List (Nat × Bytes)))
    (s : List (Nat × Bytes)) (rest : List (List (Nat × Bytes))) {kept : List (Nat × Bytes)}
    (hk : kept.Sublist s) :
    CrashImage durable [] (stageEvs (done ++ s :: rest))
      (durable.writeAll (done.flatten ++ kept)) := by
  induction done generalizing durable with
  | nil =>
    rw [List.nil_append, stageEvs]
    split
    · rename_i hs
      rw [List.isEmpty_iff.mp hs] at hk
      rw [List.sublist_nil.mp hk]
      exact .crash durable [] [] _ (List.Sublist.refl _)
    · rw [List.append_assoc]
      exact CrashImage.of_epoch hk
  | cons e done ih =>
    rw [List.cons_append, stageEvs, List.flatten_cons, List.append_assoc, Image.writeAll_append]
    split
    · rename_i he
      rw [List.isEmpty_iff.mp he]
      exact ih durable
    · rw [List.append_assoc]
      exact CrashImage.past_epoch (ih _)

theorem three_stages {α : Type} {a b c kept : List α} {done rest : List (List α)}
    (h : [a, b, c] = done ++ rest) (hk : kept.Sublist (rest.headD [])) :
    ∃ kept', (kept'.Sublist a ∧ done.flatten ++ kept = kept') ∨
      (kept'.Sublist b ∧ done.flatten ++ kept = a ++ kept') ∨
      (kept'.Sublist c ∧ done.flatten ++ kept = a ++ b ++ kept') := by
  obtain _ | ⟨x, _ | ⟨y, _ | ⟨z, more⟩⟩⟩ := done
  · obtain rfl : [a, b, c] = rest := h
    exact ⟨kept, Or.inl ⟨hk, rfl⟩⟩
  · obtain ⟨rfl, h1⟩ := List.cons.inj h
    obtain rfl : [b, c] = rest := h1
    exact ⟨kept, Or.inr (Or.inl ⟨hk, by simp⟩)⟩
  · obtain ⟨rfl, h1⟩ := List.cons.inj h
    obtain ⟨rfl, h2⟩ := List.cons.inj h1
    obtain rfl : [c] = rest := h2
    exact ⟨kept, Or.inr (Or.inr ⟨hk, by simp⟩)⟩
  · obtain ⟨rfl, h1⟩ := List.cons.inj h
    obtain ⟨rfl, h2⟩ := List.cons.inj h1
    obtain ⟨rfl, h3⟩ := List.cons.inj h2
    obtain ⟨rfl, rfl⟩ := List.append_eq_nil_iff.mp (show more ++ rest = [] from h3.symm)
    obtain rfl : kept = [] := List.sublist_nil.mp hk
    exact ⟨c, Or.inr (Or.inr ⟨List.Sublist.refl c, by simp⟩)⟩

theorem Disk.after_epoch (d : Disk) (ws : List (Nat × Bytes)) :
    d.after (writeEvs ws ++ [.flush]) = { d with img := d.img.writeAll ws } := by
  rw [Disk.after_append, Disk.after_writeEvs]
  rfl

theorem CrashImage.closed_cases {durable img : Image} {ws : List (Nat × Bytes)} {rest : List Ev}
    (h : CrashImage durable [] (writeEvs ws ++ [.flush] ++ rest) img) :
    (∃ kept, kept.Sublist ws ∧ img = durable.writeAll kept) ∨ CrashImage (durable.writeAll ws)
      [] rest img := by
  rw [List.append_assoc] at h
  exact h.epoch_cases

/-- What may be left of a history whose acknowledged entries are marked: all of those, and any of
the others, in order. -/
def Kept {α : Type} (history : List (α × Bool)) (kept : List α) : Prop :=
  ((history.filter Prod.snd).map Prod.fst).Sublist kept ∧ kept.Sublist (history.map Prod.fst)

section Kept

variable {α : Type} {history : List (α × Bool)} {kept : List α}

theorem Kept.nil : Kept ([] : List (α × Bool)) [] := ⟨List.Sublist.refl _, List.Sublist.refl _⟩

theorem Kept.append (h : Kept history kept) (a : α) (acknowledged : Bool) :
    Kept (history ++ [(a, acknowledged)]) (kept ++ [a]) := by
  constructor
  · rw [List.filter_append, List.map_append]
    apply h.1.append
    cases acknowledged with
    | true => exact List.Sublist.refl _
    | false => exact List.nil_sublist _
  · rw [List.map_append]
    exact h.2.append (List.Sublist.refl _)

theorem Kept.lost (h : Kept history kept) (a : α) : Kept (history ++ [(a, false)]) kept := by
  constructor
  · rw [List.filter_append, List.map_append]
    simpa using h.1
  · rw [List.map_append]
    exact h.2.trans (List.sublist_append_left _ _)

end Kept

end FsExt4.Lib
