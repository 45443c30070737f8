import Unegg.Effects

/-!
# Unegg.Effects.Bytewise

Events up to the way in which the bytes were cut into writes.

`bytewise` cuts every write into single bytes.  Where two worlds have the same
bytewise events, the same files were opened and removed in the same order, each
of them got the same bytes in between (`files_bytewise`, `written_bytewise`).
-/

namespace Unegg

open Prog

/-- The events, one byte to a write. -/
def bytewise (w : World) : World := w.flatMap step
where
  step : Event → World
    | .write t bs => bs.map fun b => .write t [b]
    | e => [e]

@[simp] theorem bytewise_append (w w' : World) :
    bytewise (w ++ w') = bytewise w ++ bytewise w' :=
  List.flatMap_append

@[simp] theorem bytewise_write (t : Target) (bs : List UInt8) :
    bytewise [.write t bs] = bs.map fun b => .write t [b] := by
  simp [bytewise, bytewise.step]

theorem written_bytewise (w : World) : written (bytewise w) = written w := by
  have hstep : ∀ e, written (bytewise.step e) = written.step e := by
    rintro (_ | _ | _ | ⟨t, bs⟩ | _ | _)
    case write =>
      induction bs with
      | nil => rfl
      | cons b bs ih => exact congrArg (b :: ·) ih
    all_goals rfl
  simp only [bytewise, written, List.flatMap_assoc]
  exact List.flatMap_congr fun e _ => hstep e

/-- Writing bytes one by one is writing them at once. -/
theorem files_bytewise_step (e : Event) (fs : Path → Option (List UInt8)) :
    (bytewise.step e).foldl files.step fs = files.step fs e := by
  rcases e with _ | _ | _ | ⟨t, bs⟩ | _ | _
  case write =>
    rcases t with _ | p
    · induction bs with
      | nil => rfl
      | cons b bs ih => exact ih
    · induction bs generalizing fs with
      | nil =>
          funext q
          by_cases hq : q = p
          · subst hq
            simp [bytewise.step, files.step]
          · simp [bytewise.step, files.step, hq]
      | cons b bs ih =>
          refine (ih _).trans ?_
          funext q
          by_cases hq : q = p
          · subst hq
            simp [files.step, Function.comp_def]
          · simp [files.step, hq]
  all_goals rfl

theorem files_bytewise (w : World) : files (bytewise w) = files w := by
  suffices h : ∀ fs, (bytewise w).foldl files.step fs = w.foldl files.step fs from h _
  induction w with
  | nil => exact fun _ => rfl
  | cons e w ih =>
      intro fs
      change (bytewise.step e ++ bytewise w).foldl files.step fs = _
      rw [List.foldl_append, files_bytewise_step, ih]
      rfl

/-- The same events, but for the cuts. -/
def SameBytes (w w' : World) : Prop := bytewise w = bytewise w'

namespace SameBytes

variable {w w' : World}

theorem files (h : SameBytes w w') : Unegg.files w = Unegg.files w' := by
  rw [← files_bytewise, h, files_bytewise]

theorem written (h : SameBytes w w') : Unegg.written w = Unegg.written w' := by
  rw [← written_bytewise, h, written_bytewise]

theorem append (h : SameBytes w w') (es : World) : SameBytes (w ++ es) (w' ++ es) := by
  simp only [SameBytes, bytewise_append]
  rw [h]

end SameBytes

/-! ## calls that succeed -/

section Calls

variable {os : Os} {w w' : World}

/-- What a `write_all` adds to the events. -/
theorem bytewise_writeTo {t : Option Target} {bs : List UInt8}
    (h : (os.writeTo t bs).run w = (.ok (), w')) :
    bytewise w' = bytewise w ++ t.toList.flatMap fun t => bs.map fun b => .write t [b] := by
  cases t with
  | none =>
      simp only [Os.writeTo, Run.pure_run, Prod.mk.injEq, true_and] at h
      simp [h]
  | some t =>
      have hall := ByteSink.writeAll_induction
        (I := fun d v => bytewise v = bytewise w ++ d.map fun b => .write t [b]) ?_
        (d := []) (by simp) h
      · simpa using hall
      · intro cs d v n v' hI hwrite
        simp only [Os.sink] at hwrite
        split at hwrite
        · simp only [Prod.mk.injEq, Outcome.ok.injEq] at hwrite
          rw [← hwrite.1, ← hwrite.2, ← List.take_eq_take_min, bytewise_append, hI,
            bytewise_write, List.map_append, List.append_assoc]
        · simp at hwrite

end Calls

end Unegg
