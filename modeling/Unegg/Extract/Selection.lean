import Unegg.Extract

/-!
# Unegg.Extract.Selection

The two entry points as one: everything is extracted, or what some names
select.  Either way the entries that are selected are extracted, entry by entry
or as one stream, and then the names are checked (`extraction_entries`,
`extraction_solid`).
-/

namespace Unegg

open Prog

variable (crates : Crates) (os : Os) (archive : EggArchive) (dest : Path)
  (password : Option String) (pipeMode : Bool)

/-- Extract everything, or what the names select. -/
def extraction : Option (List String) → Extract Unit
  | none => extractAll crates os archive dest password pipeMode
  | some files => extractFiles crates os archive dest password pipeMode files

/-- The entries that pass a filter. -/
def selected (filter : Option (List String)) (entries : List EggFileEntry) : List EggFileEntry :=
  entries.filter fun entry => shouldExtract entry filter

/-- Every name has to match an entry. -/
def checkMatched : Option (List String) → Extract Unit
  | none => return ()
  | some files =>
    match unmatched archive files with
    | some name => Run.throw (.fileNotFound name)
    | none => return ()

@[simp] theorem shouldExtract_none (entry : EggFileEntry) : shouldExtract entry none = true := rfl

@[simp] theorem selected_none (entries : List EggFileEntry) : selected none entries = entries := by
  simp [selected]

/-- Skipping an entry is leaving it out. -/
theorem forEach_ite {σ ε α : Type} (p : α → Bool) (f : α → Run σ ε Unit) (as : List α) :
    Run.forEach (fun a => if p a then f a else pure ()) as = Run.forEach f (as.filter p) := by
  induction as with
  | nil => rfl
  | cons a as ih =>
      rw [Run.forEach, ih]
      by_cases hp : p a
      · rw [List.filter_cons_of_pos hp, if_pos hp, Run.forEach]
      · rw [List.filter_cons_of_neg hp, if_neg hp, pure_bind]

theorem extraction_entries (filter : Option (List String)) (h : archive.isSolid = false) :
    extraction crates os archive dest password pipeMode filter =
      Run.forEach (extractEntry crates os archive dest password pipeMode)
          (selected filter archive.entries) >>= fun _ => checkMatched archive filter := by
  cases filter with
  | none =>
      rw [extraction, extractAll, if_neg (by simp [h]), selected_none]
      exact (bind_pure _).symm
  | some files =>
      rw [extraction, extractFiles, extractSelected, if_neg (by simp [h]), forEach_ite]
      rfl

theorem extraction_solid (filter : Option (List String)) (h : archive.isSolid = true) :
    extraction crates os archive dest password pipeMode filter =
      extractAllSolid crates os archive archive.entries dest password pipeMode filter >>=
        fun _ => checkMatched archive filter := by
  cases filter with
  | none =>
      rw [extraction, extractAll, if_pos h]
      exact (bind_pure _).symm
  | some files =>
      rw [extraction, extractFiles, extractSelected, if_pos h]
      rfl

end Unegg
