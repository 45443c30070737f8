import Unegg.Coder
import Unegg.Crates
import Unegg.Path

/-!
# Unegg.Effects

What the extraction does to the outside: the calls it makes to the file system
and to standard output, in order.

The state of an extraction is the list of these events (`World`).  What the
operating system answers to a call may depend on everything that happened
before and is a parameter (`Os`); a failed call is an event as well.  An open
file is the `Target` it was opened for.
-/

namespace Unegg

open Prog

/-- Where bytes are written. -/
inductive Target where
  | stdout
  | file (p : Path)
  deriving Repr, DecidableEq

inductive Event where
  /-- `fs::create_dir_all`. -/
  | createDirAll (p : Path) (ok : Bool)
  /-- `fs::File::create`, which truncates. -/
  | create (p : Path) (ok : Bool)
  /-- `io::stdout()`, taken as the output of an entry. -/
  | stdout
  /-- The bytes a `write` accepted. -/
  | write (t : Target) (bs : List UInt8)
  /-- `fs::remove_file`. -/
  | remove (p : Path)
  /-- `filetime::set_file_mtime`. -/
  | setTime (p : Path) (unixSecs : Nat) (nanos : Nat)
  deriving Repr, DecidableEq

abbrev World := List Event

/-- The answers of the operating system; `none` is success. -/
structure Os where
  createDirAll : World → Path → Option IoError
  create : World → Path → Option IoError
  write : World → Target → List UInt8 → Except IoError Nat
  flush : World → Target → Option IoError

/-- Every call succeeds; a write takes at least one byte of several. -/
structure Os.Succeeds (os : Os) : Prop where
  createDirAll : ∀ w p, os.createDirAll w p = none
  create : ∀ w p, os.create w p = none
  write : ∀ w t bs, ∃ n, os.write w t bs = .ok n ∧ (bs ≠ [] → 0 < n)
  flush : ∀ w t, os.flush w t = none

/-- Every write to `t` succeeds, and takes at least one byte of several. -/
def Os.Takes (os : Os) (t : Target) : Prop :=
  ∀ w bs, ∃ n, os.write w t bs = .ok n ∧ (bs ≠ [] → 0 < n)

/-- Where all calls succeed, every target takes what is written to it. -/
theorem Os.Succeeds.takes {os : Os} (hos : os.Succeeds) (t : Target) : os.Takes t :=
  fun w bs => hos.write w t bs

/-- The operating system that does everything it is asked for at once. -/
def Os.obliging : Os where
  createDirAll _ _ := none
  create _ _ := none
  write _ _ bs := .ok bs.length
  flush _ _ := none

/-- The obliging system refuses nothing. -/
theorem Os.obliging_succeeds : Os.obliging.Succeeds where
  createDirAll _ _ := rfl
  create _ _ := rfl
  write _ _ bs := ⟨bs.length, rfl, List.length_pos_iff.mpr⟩
  flush _ _ := rfl

/-! ## calls -/

namespace Os

variable (os : Os)

def mkdirAll (p : Path) : Run World IoError Unit := ⟨fun w =>
  match os.createDirAll w p with
  | none => (.ok (), w ++ [.createDirAll p true])
  | some e => (.err e, w ++ [.createDirAll p false])⟩

def createFile (p : Path) : Run World IoError Unit := ⟨fun w =>
  match os.create w p with
  | none => (.ok (), w ++ [.create p true])
  | some e => (.err e, w ++ [.create p false])⟩

/-- `if let Some(parent) = p.parent() { create_dir_all(parent)? }`. -/
def createParent (p : Path) : Run World IoError Unit :=
  match p.parent with
  | some parent => os.mkdirAll parent
  | none => return ()

/-- An open file, or standard output. -/
def sink (t : Target) : ByteSink IoError World where
  write bs := ⟨fun w =>
    match os.write w t bs with
    | .ok n => (.ok (min n bs.length), w ++ [.write t (bs.take n)])
    | .error e => (.err e, w)⟩
  flush := ⟨fun w =>
    match os.flush w t with
    | none => (.ok (), w)
    | some e => (.err e, w)⟩
  write_le := by
    intro bs w n w' h
    simp only at h
    split at h
    · simp only [Prod.mk.injEq, Outcome.ok.injEq] at h
      omega
    · simp at h

/-- `if let Some(w) = writer { w.write_all(bs)? }`. -/
def writeTo (writer : Option Target) (bs : List UInt8) : Run World IoError Unit :=
  match writer with
  | some t => (os.sink t).writeAll bs
  | none => return ()

/-- A call whose result is not looked at. -/
def note {ε : Type} (e : Event) : Run World ε Unit := Run.modify (· ++ [e])

end Os

/-! ## what the events amount to -/

/-- All bytes that were written. -/
def written (w : World) : List UInt8 := w.flatMap step
where
  step : Event → List UInt8
    | .write _ bs => bs
    | _ => []

/-- The regular files that the events have created and not removed, with their
contents. -/
def files (w : World) : Path → Option (List UInt8) := w.foldl step fun _ => none
where
  step (fs : Path → Option (List UInt8)) : Event → Path → Option (List UInt8)
    | .create p true => Function.update fs p (some [])
    | .write (.file p) bs => Function.update fs p ((fs p).map (· ++ bs))
    | .remove p => Function.update fs p none
    | _ => fs

/-- An event that neither opens nor changes nor removes a file. -/
def Event.isQuiet : Event → Bool
  | createDirAll _ _ | create _ false | setTime _ _ _ => true
  | _ => false

/-- The events since `w₀` opened `outs` one after the other and wrote to each
what it holds while it was the last; nothing was removed. -/
inductive Wrote (w₀ : World) : World → List (Target × List UInt8) → Prop
  | start : Wrote w₀ w₀ []
  | quiet {w outs e} (h : Wrote w₀ w outs) (he : e.isQuiet) : Wrote w₀ (w ++ [e]) outs
  | create {w outs} (p : Path) (h : Wrote w₀ w outs) :
      Wrote w₀ (w ++ [.create p true]) (outs ++ [(.file p, [])])
  | stdout {w outs} (h : Wrote w₀ w outs) :
      Wrote w₀ (w ++ [.stdout]) (outs ++ [(.stdout, [])])
  | write {w outs t cs} (bs : List UInt8) (h : Wrote w₀ w (outs ++ [(t, cs)])) :
      Wrote w₀ (w ++ [.write t bs]) (outs ++ [(t, cs ++ bs)])

/-- What was last written to a file. -/
def contentOf (outs : List (Target × List UInt8)) (p : Path) : Option (List UInt8) :=
  (outs.reverse.find? fun o => o.1 = .file p).map Prod.snd

@[simp] theorem contentOf_nil (p : Path) : contentOf [] p = none := rfl

/-- The last output to a path is its content. -/
theorem contentOf_concat (outs : List (Target × List UInt8)) (t : Target) (cs : List UInt8)
    (p : Path) : contentOf (outs ++ [(t, cs)]) p =
      if t = .file p then some cs else contentOf outs p := by
  rw [contentOf, List.reverse_append, List.reverse_singleton, List.singleton_append,
    List.find?_cons]
  by_cases h : t = .file p <;> simp [h, contentOf]

/-- The content of a path is one of the outputs. -/
theorem mem_of_contentOf {outs : List (Target × List UInt8)} {p : Path} {cs : List UInt8}
    (h : contentOf outs p = some cs) : (.file p, cs) ∈ outs := by
  rw [contentOf, Option.map_eq_some_iff] at h
  obtain ⟨o, ho, rfl⟩ := h
  have hmem := List.mem_of_find?_eq_some ho
  have htarget := List.find?_some ho
  rw [decide_eq_true_eq] at htarget
  rw [← htarget]
  exact List.mem_reverse.mp hmem

namespace Wrote

variable {w₀ w : World} {outs : List (Target × List UInt8)}

/-- The bytes written are those of the outputs, in their order. -/
theorem written (h : Wrote w₀ w outs) :
    written w = Unegg.written w₀ ++ (outs.map Prod.snd).flatten := by
  have hstep : ∀ w e, Unegg.written (w ++ [e]) = Unegg.written w ++ written.step e := by
    simp [Unegg.written]
  induction h with
  | start => simp
  | quiet _ he ih =>
      rw [hstep, ih]
      rename_i e _
      cases e <;> simp_all [Event.isQuiet, written.step]
  | create p _ ih => simp [hstep, ih, written.step]
  | stdout _ ih => simp [hstep, ih, written.step]
  | write bs _ ih => simp [hstep, ih, written.step]

/-- A file holds the last output to it, or what it held before. -/
theorem files (h : Wrote w₀ w outs) (p : Path) :
    files w p = (contentOf outs p).or (Unegg.files w₀ p) := by
  have hstep : ∀ w e, Unegg.files (w ++ [e]) = files.step (Unegg.files w) e := by
    simp [Unegg.files]
  induction h generalizing p with
  | start => rfl
  | quiet _ he ih =>
      rw [hstep, ← ih]
      rename_i e _
      cases e with
      | create p ok => cases ok <;> simp_all [Event.isQuiet, files.step]
      | _ => simp_all [Event.isQuiet, files.step]
  | create q _ ih =>
      rw [hstep, files.step, contentOf_concat]
      by_cases hq : q = p
      · subst hq
        simp
      · rw [Function.update_of_ne (Ne.symm hq), ih, if_neg (by simpa using hq)]
  | stdout _ ih => simp [hstep, files.step, ih, contentOf_concat]
  | write bs _ ih =>
      rename_i w outs t cs _
      rw [hstep, contentOf_concat]
      cases t with
      | stdout =>
          have hp := ih p
          rw [contentOf_concat, if_neg (by simp)] at hp
          simp [files.step, hp]
      | file q =>
          have hp := ih p
          rw [contentOf_concat] at hp
          by_cases hq : q = p
          · subst hq
            rw [if_pos rfl] at hp ⊢
            simp [files.step, hp]
          · rw [if_neg (by simpa using hq)] at hp ⊢
            rw [files.step, Function.update_of_ne (Ne.symm hq), hp]

end Wrote

/-! ## calls and outputs -/

section Calls

variable {os : Os} {w₀ w w' : World} {outs : List (Target × List UInt8)}

/-- Making a directory puts nothing out. -/
theorem Wrote.mkdirAll {p : Path} (hw : Wrote w₀ w outs)
    (h : (os.mkdirAll p).run w = (.ok (), w')) : Wrote w₀ w' outs := by
  simp only [Os.mkdirAll] at h
  split at h
  · simp only [Prod.mk.injEq] at h
    rw [← h.2]
    exact .quiet hw rfl
  · simp at h

/-- Making the parent of a file puts nothing out. -/
theorem Wrote.createParent {p : Path} (hw : Wrote w₀ w outs)
    (h : (os.createParent p).run w = (.ok (), w')) : Wrote w₀ w' outs := by
  rw [Os.createParent] at h
  split at h
  · exact hw.mkdirAll h
  · simp only [Run.pure_run, Prod.mk.injEq, true_and] at h
    rwa [← h]

/-- Creating a file begins an output. -/
theorem Wrote.createFile {p : Path} (hw : Wrote w₀ w outs)
    (h : (os.createFile p).run w = (.ok (), w')) : Wrote w₀ w' (outs ++ [(.file p, [])]) := by
  simp only [Os.createFile] at h
  split at h
  · simp only [Prod.mk.injEq] at h
    rw [← h.2]
    exact .create p hw
  · simp at h

/-- What an open file takes is written to it. -/
theorem Os.takes_sink (t : Target) (cs : List UInt8) :
    (os.sink t).Takes fun d w => Wrote w₀ w (outs ++ [(t, cs ++ d)]) where
  write_ok := by
    intro bs d w n w' hw h
    simp only [Os.sink] at h
    split at h
    · simp only [Prod.mk.injEq, Outcome.ok.injEq] at h
      rw [← h.1, ← h.2, ← List.take_eq_take_min, ← List.append_assoc]
      exact .write _ hw
    · simp at h
  write_err := by
    intro bs d w e w' hw h
    simp only [Os.sink] at h
    split at h
    · simp at h
    · simp only [Prod.mk.injEq] at h
      rwa [← h.2]
  flush := by
    intro d w hw
    simp only [Os.sink]
    split <;> exact hw

/-- Writing to it goes on with that output. -/
theorem Wrote.writeTo {t : Option Target} {cs bs : List UInt8}
    (hw : Wrote w₀ w (outs ++ (t.map (·, cs)).toList))
    (h : (os.writeTo t bs).run w = (.ok (), w')) :
    Wrote w₀ w' (outs ++ (t.map (·, cs ++ bs)).toList) := by
  cases t with
  | none =>
      simp only [Os.writeTo, Run.pure_run, Prod.mk.injEq, true_and] at h
      rwa [← h]
  | some t =>
      have hnil : Wrote w₀ w (outs ++ [(t, cs ++ [])]) := by simpa using hw
      simpa using ByteSink.writeAll_induction (os.takes_sink t cs).write_ok hnil h

end Calls

/-! ## the events a computation adds -/

/-- The world goes on with events that satisfy `P`. -/
def Adds (P : Event → Prop) (w w' : World) : Prop := ∃ es, w' = w ++ es ∧ ∀ e ∈ es, P e

namespace Adds

variable {P : Event → Prop} {os : Os}

instance : Std.Refl (Adds P) := ⟨fun w => ⟨[], by simp, by simp⟩⟩

instance : IsTrans World (Adds P) where
  trans := by
    rintro w _ _ ⟨es, rfl, hes⟩ ⟨es', rfl, hes'⟩
    refine ⟨es ++ es', by rw [List.append_assoc], fun e he => ?_⟩
    rcases List.mem_append.mp he with he | he
    · exact hes e he
    · exact hes' e he

/-- One event is added. -/
theorem one {e : Event} (he : P e) (w : World) : Adds P w (w ++ [e]) := ⟨[e], rfl, by simpa⟩

/-- What holds of the events may be weakened. -/
theorem mono {Q : Event → Prop} {w w' : World} (h : Adds P w w') (hPQ : ∀ e, P e → Q e) :
    Adds Q w w' := by
  obtain ⟨es, rfl, hes⟩ := h
  exact ⟨es, rfl, fun e he => hPQ e (hes e he)⟩

theorem note {ε : Type} {e : Event} (he : P e) :
    Run.Steps (Adds P) (Os.note e : Run World ε Unit) := fun w => one he w

/-- Making a directory adds that event, and whether it succeeded. -/
theorem mkdirAll {p : Path} (hp : ∀ ok, P (.createDirAll p ok)) :
    Run.Steps (Adds P) (os.mkdirAll p) := by
  intro w
  simp only [Os.mkdirAll]
  split
  · exact one (hp true) w
  · exact one (hp false) w

/-- Creating a file adds that event, and whether it succeeded. -/
theorem createFile {p : Path} (hp : ∀ ok, P (.create p ok)) :
    Run.Steps (Adds P) (os.createFile p) := by
  intro w
  simp only [Os.createFile]
  split
  · exact one (hp true) w
  · exact one (hp false) w

/-- Making the parent adds the event of the parent, if there is one. -/
theorem createParent {p : Path} (hp : ∀ q ok, p.parent = some q → P (.createDirAll q ok)) :
    Run.Steps (Adds P) (os.createParent p) := by
  rw [Os.createParent]
  split
  · next q hq => exact mkdirAll fun ok => hp q ok hq
  · exact .pure ()

/-- A write adds the bytes it took. -/
theorem write {t : Target} (ht : ∀ bs, P (.write t bs)) (bs : List UInt8) :
    Run.Steps (Adds P) ((os.sink t).write bs) := by
  intro w
  simp only [Os.sink]
  split
  · exact one (ht _) w
  · exact Std.Refl.refl w

/-- A flush adds nothing. -/
theorem flush (t : Target) : Run.Steps (Adds P) (os.sink t).flush := by
  intro w
  simp only [Os.sink]
  split <;> exact Std.Refl.refl w

end Adds

/-- Quiet events change no output. -/
theorem Wrote.adds {w₀ w w' : World} {outs : List (Target × List UInt8)} (h : Wrote w₀ w outs)
    (hadds : Adds (fun e => e.isQuiet) w w') : Wrote w₀ w' outs := by
  obtain ⟨es, rfl, hes⟩ := hadds
  induction es generalizing w with
  | nil => rwa [List.append_nil]
  | cons e es ih =>
      have hfirst := ih (.quiet h (hes e List.mem_cons_self))
        fun e' he' => hes e' (List.mem_cons_of_mem e he')
      rwa [List.append_assoc] at hfirst

/-- Quiet events in front change no output. -/
theorem Wrote.after {w₀ w₁ w : World} {outs : List (Target × List UInt8)} (h : Wrote w₁ w outs)
    (hadds : Adds (fun e => e.isQuiet) w₀ w₁) : Wrote w₀ w outs := by
  induction h with
  | start => exact Wrote.start.adds hadds
  | quiet _ he ih => exact .quiet ih he
  | create p _ ih => exact .create p ih
  | stdout _ ih => exact .stdout ih
  | write bs _ ih => exact .write bs ih

/-! ## calls that succeed -/

/-- Where every write succeeds, so does a `write_all`. -/
theorem Os.Takes.writeAll_total {os : Os} {t : Target} (h : os.Takes t) (bs : List UInt8)
    (w : World) : ∃ w', ((os.sink t).writeAll bs).run w = (.ok (), w') := by
  refine ByteSink.writeAll_total (fun bs w hne => ?_) bs w
  obtain ⟨n, hn, hpos⟩ := h w bs
  have hlen := List.length_pos_of_ne_nil hne
  have := hpos hne
  exact ⟨min n bs.length, w ++ [.write t (bs.take n)], by simp only [Os.sink, hn], by omega⟩

namespace Os.Succeeds

variable {os : Os} (hos : os.Succeeds)
include hos

theorem mkdirAll_run (p : Path) (w : World) :
    (os.mkdirAll p).run w = (.ok (), w ++ [.createDirAll p true]) := by
  simp only [Os.mkdirAll, hos.createDirAll]

theorem createFile_run (p : Path) (w : World) :
    (os.createFile p).run w = (.ok (), w ++ [.create p true]) := by
  simp only [Os.createFile, hos.create]

/-- Making the parent of a file succeeds. -/
theorem createParent_total (p : Path) (w : World) :
    ∃ w', (os.createParent p).run w = (.ok (), w') := by
  rw [Os.createParent]
  split
  · exact ⟨_, hos.mkdirAll_run _ w⟩
  · exact ⟨w, rfl⟩

/-- Writing to a file or to nowhere succeeds. -/
theorem writeTo_total (t : Option Target) (bs : List UInt8) (w : World) :
    ∃ w', (os.writeTo t bs).run w = (.ok (), w') := by
  cases t with
  | none => exact ⟨w, rfl⟩
  | some t => exact (hos.takes t).writeAll_total bs w

end Os.Succeeds

/-- A removed file is gone; the others stay. -/
theorem files_remove (w : World) (q p : Path) :
    files (w ++ [.remove q]) p = if p = q then none else files w p := by
  simp [files, files.step, Function.update_apply]

end Unegg
