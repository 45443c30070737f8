import Unegg.Effects

/-!
# Unegg.Effects.Made

What is made when every call succeeds.

`Made` extends the outputs of `Wrote` by the directories above them, which are
the only ones that opening an output makes.
-/

namespace Unegg

open Prog

/-- The directory that an event made. -/
def Event.madeDir : Event → Option Path
  | createDirAll p true => some p
  | _ => none

/-- The directories that were made, in order. -/
def directories (w : World) : List Path := w.filterMap Event.madeDir

@[simp] theorem directories_append (w es : World) :
    directories (w ++ es) = directories w ++ directories es := List.filterMap_append

/-- The directory above an output. -/
def Target.above : Target → List Path
  | stdout => []
  | file p => p.parent.toList

/-- The events since `w₀` made `outs`, and the directories above them. -/
structure Made (w₀ w : World) (outs : List (Target × List UInt8)) : Prop where
  wrote : Wrote w₀ w outs
  directories : directories w = directories w₀ ++ outs.flatMap fun out => out.1.above

theorem Wrote.trans {w₀ w₁ w : World} {outs outs' : List (Target × List UInt8)}
    (h : Wrote w₀ w₁ outs) (h' : Wrote w₁ w outs') : Wrote w₀ w (outs ++ outs') := by
  induction h' with
  | start => rwa [List.append_nil]
  | quiet _ he ih => exact .quiet ih he
  | create p _ ih =>
      rw [← List.append_assoc]
      exact .create p ih
  | stdout _ ih =>
      rw [← List.append_assoc]
      exact .stdout ih
  | write bs _ ih =>
      rw [← List.append_assoc] at ih ⊢
      exact .write bs ih

theorem directories_adds {w w' : World} (h : Adds (fun e => e.madeDir = none) w w') :
    directories w' = directories w := by
  obtain ⟨es, rfl, hes⟩ := h
  have hnone : directories es = [] := List.filterMap_eq_nil_iff.mpr hes
  rw [directories_append, hnone, List.append_nil]

namespace Made

variable {os : Os} {w₀ w₁ w w' : World} {outs outs' : List (Target × List UInt8)}

theorem start : Made w w [] := ⟨.start, by simp⟩

/-- Events that neither change an output nor make a directory. -/
theorem adds (h : Made w₀ w outs)
    (hadds : Adds (fun e => e.isQuiet ∧ e.madeDir = none) w w') : Made w₀ w' outs where
  wrote := h.wrote.adds (hadds.mono fun _ he => he.1)
  directories := by rw [directories_adds (hadds.mono fun _ he => he.2), h.directories]

theorem stdout (h : Made w₀ w outs) : Made w₀ (w ++ [.stdout]) (outs ++ [(.stdout, [])]) where
  wrote := .stdout h.wrote
  directories := by
    rw [directories_append, h.directories]
    simp [Unegg.directories, Event.madeDir, Target.above]

/-- A file is created below the directories above it. -/
theorem create (hos : os.Succeeds) (h : Made w₀ w outs) (path : Path) :
    ∃ w₁ w', (os.createParent path).run w = (.ok (), w₁) ∧
      (os.createFile path).run w₁ = (.ok (), w') ∧ Made w₀ w' (outs ++ [(.file path, [])]) := by
  obtain ⟨w₁, h₁⟩ := hos.createParent_total path w
  have hdirs : Unegg.directories w₁ = Unegg.directories w ++ path.parent.toList := by
    rw [Os.createParent] at h₁
    cases hparent : path.parent with
    | none =>
        simp only [hparent, Run.pure_run, Prod.mk.injEq, true_and] at h₁
        simp [h₁]
    | some q =>
        simp only [hparent, hos.mkdirAll_run, Prod.mk.injEq, true_and] at h₁
        rw [← h₁, directories_append]
        rfl
  refine ⟨w₁, _, h₁, hos.createFile_run path w₁, ⟨(h.wrote.createParent h₁).createFile
    (hos.createFile_run path w₁), ?_⟩⟩
  rw [directories_append, hdirs, h.directories]
  simp [Unegg.directories, Event.madeDir, Target.above]

/-- What an open output takes. -/
theorem writeTo (hos : os.Succeeds) {t : Option Target} {cs : List UInt8}
    (h : Made w₀ w (outs ++ (t.map (·, cs)).toList)) (bs : List UInt8) :
    ∃ w', (os.writeTo t bs).run w = (.ok (), w') ∧
      Made w₀ w' (outs ++ (t.map (·, cs ++ bs)).toList) := by
  obtain ⟨w', hrun⟩ := hos.writeTo_total t bs w
  refine ⟨w', hrun, h.wrote.writeTo hrun, ?_⟩
  have hadds : Run.Steps (Adds fun e => e.madeDir = none) (os.writeTo t bs) := by
    cases t with
    | none => exact .pure ()
    | some t => exact ByteSink.steps_writeAll (fun bs => Adds.write (fun _ => rfl) bs) bs
  rw [directories_adds (hadds.of_run hrun), h.directories]
  cases t <;> simp

end Made

end Unegg
