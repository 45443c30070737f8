import Unegg.Extract.SolidDelivered

/-!
# Unegg.Extract.Restriction

Selective extraction is a restriction of full extraction.

Where everything can be extracted, so can any selection, entry by entry or as
one stream (`selection_delivered`), and both deliver the same contents; what is
left of the names is then checked (`extractFiles_restricts`).
-/

namespace Unegg

open Prog

variable {crates : Crates} {os : Os} {archive : EggArchive} {dest : Path}
  {password : Option String} {names : List String} {w w' v v' : World}

/-! ## names -/

/-- The entry has a name that is asked for. -/
def Matches (archive : EggArchive) (name : String) : Prop :=
  ∃ entry ∈ archive.entries, matchesFilter entry.fileName name

/-- The first name that no entry has. -/
def FirstUnmatched (archive : EggArchive) (names : List String) (name : String) : Prop :=
  ∃ before after, names = before ++ name :: after ∧ (∀ n ∈ before, Matches archive n) ∧
    ¬ Matches archive name

theorem unmatched_eq_none : unmatched archive names = none ↔ ∀ name ∈ names, Matches archive name := by
  simp [unmatched, Matches]

theorem unmatched_eq_some {name : String} (h : FirstUnmatched archive names name) :
    unmatched archive names = some name := by
  obtain ⟨before, after, rfl, hbefore, hname⟩ := h
  rw [unmatched, List.find?_eq_some_iff_append]
  refine ⟨by simpa [Matches] using hname, before, after, rfl, fun n hn => ?_⟩
  simpa [Matches] using hbefore n hn

/-- Checking the names changes nothing. -/
theorem checkMatched_world (archive : EggArchive) (filter : Option (List String)) (w : World) :
    ((checkMatched archive filter).run w).2 = w := by
  cases filter with
  | none => rfl
  | some names =>
      rw [checkMatched]
      cases unmatched archive names <;> rfl

/-! ## both extractions -/

theorem scanError_selected {entries : List EggFileEntry} {filter : Option (List String)}
    (h : scanError dest false none entries = none) : scanError dest false filter entries = none := by
  rw [scanError_eq_none] at h ⊢
  exact fun entry hentry _ => h entry hentry (by simp [scanJoins])

/-- Where everything has been extracted, a selection can be, with the same contents. -/
theorem selection_delivered (hos : os.Succeeds)
    (hall : (extractAll crates os archive dest password false).run w = (.ok (), v))
    (names : List String) (w' : World) :
    ∃ fs v', (extractSelected crates os archive dest password false names).run w' = (.ok (), v') ∧
      Delivered dest false none archive.entries fs w v ∧
      Delivered dest false (some names) archive.entries fs w' v' := by
  cases hsolid : archive.isSolid with
  | false =>
      rw [extractAll, if_neg (by simp [hsolid])] at hall
      have hentries : entriesOutcome crates os archive dest password
          (selected none archive.entries) = .ok () := by
        rw [selected_none, ← (entries_determined hos false _ w).1, hall]
      have hselected : entriesOutcome crates os archive dest password
          (selected (some names) archive.entries) = .ok () := by
        rw [selected_none, entriesOutcome_ok] at hentries
        exact entriesOutcome_ok.mpr fun entry hentry =>
          hentries entry (List.mem_of_mem_filter hentry)
      have hv := entries_delivered hos false none archive.entries w hentries
      rw [selected_none, hall] at hv
      refine ⟨_, _, ?_, hv,
        entries_delivered hos false (some names) archive.entries w' hselected⟩
      rw [extractSelected, if_neg (by simp [hsolid]), forEach_ite]
      exact Prod.ext ((entries_determined hos false _ w').1.trans hselected) rfl
  | true =>
      rw [extractAll, if_pos hsolid] at hall
      have hscan : scanError dest false none archive.entries = none := by
        rw [Option.eq_none_iff_forall_ne_some]
        intro e he
        have hstop : (Outcome.ok () : Outcome EggError Unit) = .err e :=
          (congrArg Prod.fst hall).symm.trans (extractAllSolid_scanError hos he w)
        cases hstop
      have hlost : ¬ Lost archive.entries := by
        intro hlost
        have hstop : (Outcome.ok () : Outcome EggError Unit) = .err .corruptedFile :=
          (congrArg Prod.fst hall).symm.trans (extractAllSolid_lost hos hscan hlost w)
        cases hstop
      have hscan' : scanError dest false (some names) archive.entries = none :=
        scanError_selected hscan
      have halike := @alike_extractAllSolid crates os archive dest password false false none
        (some names) archive.entries hos hscan hscan' hlost w w'
      have hok : ((extractAllSolid crates os archive archive.entries dest password false
          none).run w).1 = .ok () := congrArg Prod.fst hall
      obtain ⟨fs, hv, hv'⟩ := halike.of_ok hok
      rw [hall] at hv
      refine ⟨fs, _, ?_, hv, hv'⟩
      rw [extractSelected, if_pos hsolid]
      exact Prod.ext (halike.outcome.symm.trans hok) rfl

/-- What a selective extraction has made, next to a full one that left `v`: the files
that are asked for, with the same contents, and the directories that are asked for
or above these files. -/
structure Restricts (archive : EggArchive) (dest : Path) (names : List String) (v w' v' : World) :
    Prop where
  contents : ∀ entry ∈ regular (selected (some names) archive.entries), ∃ path content,
    safeJoin dest entry.fileName = .ok path ∧ files v path = some content ∧
      files v' path = some content
  untouched : ∀ path, (∀ entry ∈ regular (selected (some names) archive.entries),
    safeJoin dest entry.fileName ≠ .ok path) → files v' path = files w' path
  directories : ∀ d, d ∈ directories v' ↔ d ∈ directories w' ∨
    ∃ entry ∈ selected (some names) archive.entries, d ∈ entryDirectories dest entry

theorem Restricts.of_delivered {fs : List (List UInt8)}
    (hdistinct : DistinctTargets dest archive.entries)
    (h : Delivered dest false none archive.entries fs w v)
    (h' : Delivered dest false (some names) archive.entries fs w' v') :
    Restricts archive dest names v w' v' where
  contents := by
    intro entry hentry
    rw [← deliveries_fst h'.length] at hentry
    obtain ⟨p, hp, rfl⟩ := List.mem_map.mp hentry
    rw [deliveries_fst h'.length] at hentry
    obtain ⟨path, hjoin⟩ := (h'.safe p.1 hentry).joins dest
    have hfull : p ∈ deliveries none archive.entries fs :=
      List.mem_filter.mpr ⟨List.mem_of_mem_filter hp, rfl⟩
    exact ⟨path, p.2, hjoin, h.files_of_mem hdistinct hfull hjoin,
      h'.files_of_mem hdistinct hp hjoin⟩
  untouched := fun _ hnot => h'.files_of_not hnot
  directories := h'.directories rfl

/-- **Selective extraction restricts full extraction.** -/
theorem extractFiles_restricts (hos : os.Succeeds)
    (hdistinct : DistinctTargets dest archive.entries)
    (hall : (extractAll crates os archive dest password false).run w = (.ok (), v))
    (names : List String) (w' : World) :
    let r := (extractFiles crates os archive dest password false names).run w'
    Restricts archive dest names v w' r.2 ∧
      (r.1 = .ok () ↔ ∀ name ∈ names, Matches archive name) ∧
      ∀ name, FirstUnmatched archive names name → r.1 = .err (.fileNotFound name) := by
  obtain ⟨fs, v', hrun, hv, hv'⟩ := selection_delivered hos hall names w'
  dsimp only
  have hcheck : (extractFiles crates os archive dest password false names).run w' =
      (checkMatched archive (some names)).run v' := Run.bind_of_ok hrun
  rw [hcheck, checkMatched_world]
  refine ⟨.of_delivered hdistinct hv hv', ?_, fun name hname => ?_⟩
  · rw [← unmatched_eq_none, checkMatched]
    cases unmatched archive names <;> simp
  · rw [checkMatched, unmatched_eq_some hname]
    rfl

theorem apart_of_ne {e e' : EggFileEntry} {path path' : Path}
    (h : safeJoin dest e.fileName = .ok path) (h' : safeJoin dest e'.fileName = .ok path')
    (hne : path ≠ path') : Apart dest e e' := by
  intro p hp hp'
  rw [h, Except.ok.injEq] at hp
  rw [h', Except.ok.injEq] at hp'
  exact hne (hp.trans hp'.symm)

/-- Of two files in one block the second is asked for, and one that is missing. -/
theorem extractFiles_restricts_sample :
    ∃ v, (extractAll .storeOnly .obliging twoFilesOneBlock [.normal "out"] none false).run [] =
        (.ok (), v) ∧
      Restricts twoFilesOneBlock [.normal "out"] ["b", "c"] v [] ((extractFiles .storeOnly .obliging
        twoFilesOneBlock [.normal "out"] none false ["b", "c"]).run []).2 ∧
      ((extractFiles .storeOnly .obliging twoFilesOneBlock [.normal "out"] none false
        ["b", "c"]).run []).1 = .err (.fileNotFound "c") := by
  obtain ⟨v, hall⟩ : ∃ v, (extractAll .storeOnly .obliging twoFilesOneBlock [.normal "out"] none
      false).run [] = (.ok (), v) := ⟨_, Prod.ext (by decide +kernel) rfl⟩
  have hdistinct : DistinctTargets [.normal "out"] twoFilesOneBlock.entries := by
    refine .cons (fun e he => ?_) (List.pairwise_singleton _ _)
    rw [List.mem_singleton] at he
    subst he
    have ha : safeJoin [.normal "out"] "a" = .ok [.normal "out", .normal "a"] := by decide +kernel
    have hb : safeJoin [.normal "out"] "b" = .ok [.normal "out", .normal "b"] := by decide +kernel
    exact apart_of_ne ha hb (by decide)
  have hmissing : FirstUnmatched twoFilesOneBlock ["b", "c"] "c" := by
    refine ⟨["b"], [], rfl, ?_, ?_⟩
    · unfold Matches
      decide +kernel
    · unfold Matches
      decide +kernel
  obtain ⟨hrestricts, -, hfirst⟩ :=
    extractFiles_restricts Os.obliging_succeeds hdistinct hall ["b", "c"] []
  exact ⟨v, hall, hrestricts, hfirst "c" hmissing⟩

end Unegg
