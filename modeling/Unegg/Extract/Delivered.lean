import Unegg.Extract.Determined
import Unegg.Extract.Selection
import Unegg.Extract.Solid

/-!
# Unegg.Extract.Delivered

What an extraction has delivered when every call succeeds.

`Delivered` says it for both modes and both ways of extracting: the files that
pass the filter have been written with the contents `fs`, in the order of the
entries.  Which file then holds what is read off where no two entries have the
same path (`Delivered.files_of_mem`, `Delivered.files_of_not`).
-/

namespace Unegg

open Prog

variable {crates : Crates} {os : Os} {archive : EggArchive} {dest : Path}
  {password : Option String} {pipeMode : Bool} {filter : Option (List String)}
  {entries : List EggFileEntry} {entry : EggFileEntry} {fs : List (List UInt8)} {f : List UInt8}
  {w v : World} {p : Path}

/-- Of two lists that match, each member has its match. -/
theorem exists_of_forall₂ {α β : Type} {R : α → β → Prop} {as : List α} {bs : List β}
    (h : List.Forall₂ R as bs) : (∀ a ∈ as, ∃ b ∈ bs, R a b) ∧ ∀ b ∈ bs, ∃ a ∈ as, R a b := by
  induction h with
  | nil => simp
  | cons hab _ ih =>
      refine ⟨fun a ha => ?_, fun b hb => ?_⟩
      · rcases List.mem_cons.mp ha with rfl | ha
        · exact ⟨_, List.mem_cons_self, hab⟩
        · obtain ⟨b, hb, hR⟩ := ih.1 a ha
          exact ⟨b, List.mem_cons_of_mem _ hb, hR⟩
      · rcases List.mem_cons.mp hb with rfl | hb
        · exact ⟨_, List.mem_cons_self, hab⟩
        · obtain ⟨a, ha, hR⟩ := ih.2 b hb
          exact ⟨a, List.mem_cons_of_mem _ ha, hR⟩

/-! ## which file gets which content -/

/-- The files that pass the filter, with their contents. -/
def deliveries (filter : Option (List String)) (entries : List EggFileEntry)
    (fs : List (List UInt8)) : List (EggFileEntry × List UInt8) :=
  ((regular entries).zip fs).filter fun p => shouldExtract p.1 filter

/-- Two entries do not have the same path. -/
def Apart (dest : Path) (e e' : EggFileEntry) : Prop :=
  ∀ p, safeJoin dest e.fileName = .ok p → safeJoin dest e'.fileName ≠ .ok p

/-- Two entries are apart in either order. -/
theorem Apart.symm {e e' : EggFileEntry} (h : Apart dest e e') : Apart dest e' e :=
  fun p hp' hp => h p hp hp'

/-- No two entries have the same path. -/
def DistinctTargets (dest : Path) (entries : List EggFileEntry) : Prop :=
  entries.Pairwise (Apart dest)

/-- What is put out is what is delivered, where it goes. -/
theorem fileOutputs_eq : fileOutputs dest pipeMode filter entries fs =
    (deliveries filter entries fs).filterMap fun p =>
      (outputTarget dest pipeMode none p.1).map (·, p.2) := by
  rw [fileOutputs, deliveries, List.filterMap_filter]
  refine List.filterMap_congr fun p _ => ?_
  by_cases hsel : shouldExtract p.1 filter <;> simp [outputTarget, hsel]

/-- A file is put out to a path exactly if it is delivered there. -/
theorem mem_fileOutputs : (.file p, f) ∈ fileOutputs dest false filter entries fs ↔
    ∃ entry, (entry, f) ∈ deliveries filter entries fs ∧ safeJoin dest entry.fileName = .ok p := by
  rw [fileOutputs_eq]
  simp only [List.mem_filterMap, Option.map_eq_some_iff, Prod.mk.injEq, outputTarget,
    shouldExtract_none, if_true, Bool.false_eq_true, if_false]
  constructor
  · rintro ⟨⟨entry, f'⟩, hmem, t, ⟨q, hq, rfl⟩, heq, rfl⟩
    rw [Target.file.injEq] at heq
    subst heq
    refine ⟨entry, hmem, ?_⟩
    cases hjoin : safeJoin dest entry.fileName <;> simp_all [Except.toOption]
  · rintro ⟨entry, hmem, hjoin⟩
    exact ⟨(entry, f), hmem, .file p, ⟨p, by simp [hjoin, Except.toOption], rfl⟩, rfl, rfl⟩

/-- The files delivered are those the filter selects. -/
theorem deliveries_fst (h : fs.length = (regular entries).length) :
    (deliveries filter entries fs).map Prod.fst = regular (selected filter entries) := by
  have hzip : ((regular entries).zip fs).map Prod.fst = regular entries :=
    List.map_fst_zip h.ge
  have hcomm : regular (selected filter entries) =
      (regular entries).filter fun entry => shouldExtract entry filter := List.filter_comm _ _ _
  rw [hcomm, ← hzip, List.filter_map, deliveries]
  rfl

/-- One path, one content. -/
theorem deliveries_unique (hlen : fs.length = (regular entries).length)
    (hdistinct : DistinctTargets dest entries) {a b : EggFileEntry × List UInt8}
    (ha : a ∈ deliveries filter entries fs) (hb : b ∈ deliveries filter entries fs)
    (hap : safeJoin dest a.1.fileName = .ok p) (hbp : safeJoin dest b.1.fileName = .ok p) :
    a = b := by
  have hsub : (((regular entries).zip fs).map Prod.fst).Sublist entries := by
    rw [List.map_fst_zip hlen.ge]
    exact List.filter_sublist
  have hpairs : ((regular entries).zip fs).Pairwise fun a b => Apart dest a.1 b.1 :=
    List.pairwise_map.mp (hdistinct.sublist hsub)
  have hsymm : Std.Symm fun a b : EggFileEntry × List UInt8 => Apart dest a.1 b.1 :=
    ⟨fun _ _ h => h.symm⟩
  by_contra hne
  exact hpairs.forall (List.mem_of_mem_filter ha) (List.mem_of_mem_filter hb) hne p hap hbp

/-! ## the extraction of some entries -/

/-- The entries that pass the filter have been extracted, and `fs` are the
contents of the files. -/
structure Delivered (dest : Path) (pipeMode : Bool) (filter : Option (List String))
    (entries : List EggFileEntry) (fs : List (List UInt8)) (w v : World) : Prop where
  length : fs.length = (regular entries).length
  safe : ∀ entry ∈ regular (selected filter entries), SafeName entry.fileName
  written : written v = written w ++ (deliveries filter entries fs).flatMap Prod.snd
  wrote : pipeMode = false → Wrote w v (fileOutputs dest false filter entries fs)
  directories : pipeMode = false → ∀ d, d ∈ directories v ↔
    d ∈ directories w ∨ ∃ entry ∈ selected filter entries, d ∈ entryDirectories dest entry

namespace Delivered

variable (h : Delivered dest false filter entries fs w v)
include h

/-- At the path of a delivered file lies its content. -/
theorem files_of_mem (hdistinct : DistinctTargets dest entries)
    (hmem : (entry, f) ∈ deliveries filter entries fs) (hjoin : safeJoin dest entry.fileName = .ok p) :
    files v p = some f := by
  rw [(h.wrote rfl).files]
  have hout : (.file p, f) ∈ fileOutputs dest false filter entries fs :=
    mem_fileOutputs.mpr ⟨entry, hmem, hjoin⟩
  obtain ⟨c, hc⟩ : ∃ c, contentOf (fileOutputs dest false filter entries fs) p = some c := by
    rw [← Option.isSome_iff_exists, contentOf, Option.isSome_map, List.find?_isSome]
    exact ⟨_, List.mem_reverse.mpr hout, by simp⟩
  obtain ⟨entry', hmem', hjoin'⟩ := mem_fileOutputs.mp (mem_of_contentOf hc)
  have heq := deliveries_unique h.length hdistinct hmem hmem' hjoin hjoin'
  rw [Prod.mk.injEq] at heq
  rw [hc, heq.2]
  rfl

/-- At a path that no file is delivered to nothing has changed. -/
theorem files_of_not (hnot : ∀ entry ∈ regular (selected filter entries),
    safeJoin dest entry.fileName ≠ .ok p) : files v p = files w p := by
  rw [(h.wrote rfl).files]
  cases hc : contentOf (fileOutputs dest false filter entries fs) p with
  | none => rfl
  | some c =>
      obtain ⟨entry, hmem, hjoin⟩ := mem_fileOutputs.mp (mem_of_contentOf hc)
      rw [← deliveries_fst h.length] at hnot
      exact absurd hjoin (hnot entry (List.mem_map_of_mem hmem))

/-- The files hold their contents. -/
theorem contents (hdistinct : DistinctTargets dest entries) :
    (regular (selected filter entries)).map
        (fun entry => (safeJoin dest entry.fileName).toOption.bind (files v)) =
      (deliveries filter entries fs).map fun p => some p.2 := by
  rw [← deliveries_fst h.length, List.map_map]
  refine List.map_congr_left fun p hp => ?_
  have hmem : p.1 ∈ regular (selected filter entries) := by
    rw [← deliveries_fst h.length]
    exact List.mem_map_of_mem hp
  obtain ⟨path, hjoin⟩ := (h.safe p.1 hmem).joins dest
  simp only [Function.comp_apply, hjoin, Except.toOption, Option.bind_some]
  exact h.files_of_mem hdistinct hp hjoin

end Delivered

/-! ## entry by entry -/

section Entries

variable {content : EggFileEntry → List UInt8} {es : List EggFileEntry}

/-- A content for every entry is delivered for those selected. -/
theorem deliveries_map : deliveries filter entries ((regular entries).map content) =
    (regular (selected filter entries)).map fun entry => (entry, content entry) := by
  have hcomm : regular (selected filter entries) =
      (regular entries).filter fun entry => shouldExtract entry filter := List.filter_comm _ _ _
  rw [deliveries, ← List.map_prod_left_eq_zip, List.filter_map, hcomm]
  rfl

/-- Directories have no content to deliver. -/
theorem flatMap_regular (h : ∀ entry ∈ es, entry.isDirectory → content entry = []) :
    (regular es).flatMap content = es.flatMap content := by
  induction es with
  | nil => rfl
  | cons entry es ih =>
      rw [List.forall_mem_cons] at h
      rw [List.flatMap_cons, ← ih h.2]
      by_cases hdir : entry.isDirectory
      · rw [h.1 hdir, List.nil_append, regular_cons_directory hdir]
      · rw [regular_cons_file hdir, List.flatMap_cons]

/-- The outputs of the entries are those of the files. -/
theorem flatMap_entryOutputs :
    es.flatMap (fun entry => entryOutputs dest false entry (content entry)) =
      (regular es).filterMap fun entry =>
        (outputTarget dest false none entry).map (·, content entry) := by
  induction es with
  | nil => rfl
  | cons entry es ih =>
      rw [List.flatMap_cons, ih, entryOutputs]
      by_cases hdir : entry.isDirectory
      · simp [regular_cons_directory hdir, hdir]
      · rw [regular_cons_file hdir]
        cases htarget : outputTarget dest false none entry <;> simp [hdir, htarget]

/-- Entries that are done have been delivered. -/
theorem EntriesDone.delivered (h : EntriesDone dest pipeMode content (selected filter entries) w v)
    (hsafe : ∀ entry ∈ regular (selected filter entries), SafeName entry.fileName)
    (hdirs : ∀ entry ∈ selected filter entries, entry.isDirectory → content entry = []) :
    Delivered dest pipeMode filter entries ((regular entries).map content) w v where
  length := List.length_map _
  safe := hsafe
  written := by
    rw [h.written, deliveries_map, List.flatMap_map, ← flatMap_regular hdirs]
  wrote := by
    rintro rfl
    rw [fileOutputs_eq, deliveries_map, List.filterMap_map]
    have hwrote := h.wrote
    rwa [flatMap_entryOutputs] at hwrote
  directories := by
    rintro rfl d
    rw [h.directories]
    simp

/-- An entry that succeeds has a name that may be joined. -/
theorem entryOutcome_safe (h : entryOutcome crates os archive dest password entry = .ok ()) :
    SafeName entry.fileName := by
  have hrun : (extractEntry crates os archive dest password false entry).run [] =
    (.ok (), _) := Prod.ext h rfl
  rw [extractEntry, Run.bind_ok] at hrun
  obtain ⟨path, w₁, hjoin, -⟩ := hrun
  exact (safeJoin_ok.mp (Run.ofExcept_ok.mp hjoin).1).1

/-- A directory that succeeds has no content. -/
theorem entryContent_directory (hos : os.Succeeds) (hdir : entry.isDirectory)
    (h : entryOutcome crates os archive dest password entry = .ok ()) :
    entryContent crates os archive dest password entry = [] := by
  have hdone :=
    (@extractEntry_determined crates os archive dest password hos false entry []).2 h
  have hwrote := hdone.wrote.written
  rw [hdone.written, entryOutputs, hdir] at hwrote
  simpa using hwrote

/-- **Entry by entry**, the entries that pass the filter are delivered. -/
theorem entries_delivered (hos : os.Succeeds) (pipeMode : Bool) (filter : Option (List String))
    (entries : List EggFileEntry) (w : World)
    (hok : entriesOutcome crates os archive dest password (selected filter entries) = .ok ()) :
    Delivered dest pipeMode filter entries
      ((regular entries).map (entryContent crates os archive dest password)) w
      ((Run.forEach (extractEntry crates os archive dest password pipeMode)
        (selected filter entries)).run w).2 := by
  have hall := entriesOutcome_ok.mp hok
  refine ((entries_determined hos pipeMode _ w).2 hok).delivered (fun entry hentry => ?_)
    fun entry hentry hdir => ?_
  · exact entryOutcome_safe (hall entry (List.mem_of_mem_filter hentry))
  · exact entryContent_directory hos hdir (hall entry hentry)

end Entries

end Unegg
