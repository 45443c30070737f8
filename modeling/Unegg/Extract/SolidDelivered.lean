import Unegg.Extract.Codec
import Unegg.Extract.Delivered
import Unegg.SolidSink.Together

/-!
# Unegg.Extract.SolidDelivered

What the extraction of a solid archive delivers when every call succeeds.

The scan stops at the first name that cannot be joined (`scanEntries_run`).
Behind it two extractions of one archive, in different modes or with different
filters, end alike and deliver the same contents, each to its own outputs
(`alike_extractAllSolid`).
-/

namespace Unegg

open Prog

variable {crates : Crates} {os : Os} {archive : EggArchive} {dest : Path}
  {password : Option String} {pipeMode pipeMode' : Bool} {filter filter' : Option (List String)}
  {entries es : List EggFileEntry} {entry : EggFileEntry} {fs : List (List UInt8)} {w v : World}

/-! ## the scan -/

/-- The scan joins the name of the entry: of a file always, of a directory when it is
made. -/
def scanJoins (pipeMode : Bool) (filter : Option (List String)) (entry : EggFileEntry) : Bool :=
  !entry.isDirectory || !pipeMode && shouldExtract entry filter

/-- Why a name cannot be joined. -/
def joinError (dest : Path) (entry : EggFileEntry) : Option EggError :=
  match safeJoin dest entry.fileName with
  | .ok _ => none
  | .error e => some e

/-- What the scan of some entries stops at. -/
def scanError (dest : Path) (pipeMode : Bool) (filter : Option (List String))
    (entries : List EggFileEntry) : Option EggError :=
  (entries.filter (scanJoins pipeMode filter)).findSome? (joinError dest)

/-- A name may be joined exactly if no error is thrown over it. -/
theorem joinError_eq_none : joinError dest entry = none ↔ SafeName entry.fileName := by
  rw [joinError]
  constructor
  · intro h
    split at h
    · next path hjoin => exact (safeJoin_ok.mp hjoin).1
    · cases h
  · intro h
    obtain ⟨path, hjoin⟩ := h.joins dest
    rw [hjoin]

/-- The scan finds no error exactly if all the names it joins may be joined. -/
theorem scanError_eq_none : scanError dest pipeMode filter entries = none ↔
    ∀ entry ∈ entries, scanJoins pipeMode filter entry → SafeName entry.fileName := by
  simp only [scanError, List.findSome?_eq_none_iff, List.mem_filter, joinError_eq_none, and_imp]

/-- An entry whose name is joined throws its error first. -/
theorem scanError_cons_of_joins (h : scanJoins pipeMode filter entry) :
    scanError dest pipeMode filter (entry :: es) =
      (joinError dest entry).or (scanError dest pipeMode filter es) := by
  rw [scanError, List.filter_cons_of_pos h, List.findSome?_cons]
  cases hjoin : joinError dest entry <;> rfl

/-- An entry whose name is not joined throws none. -/
theorem scanError_cons_of_not (h : ¬ scanJoins pipeMode filter entry) :
    scanError dest pipeMode filter (entry :: es) = scanError dest pipeMode filter es := by
  rw [scanError, List.filter_cons_of_neg h, scanError]

/-- The directories that the scan makes. -/
def scanned (dest : Path) (pipeMode : Bool) (filter : Option (List String))
    (entries : List EggFileEntry) : List Path :=
  if pipeMode then []
  else ((selected filter entries).filter EggFileEntry.isDirectory).flatMap (entryDirectories dest)

/-- Directories have been made, and nothing else. -/
def MadeDirs (w v : World) (dirs : List Path) : Prop :=
  Adds (fun e => e.isQuiet) w v ∧ directories v = directories w ++ dirs

theorem MadeDirs.none (w : World) : MadeDirs w w [] := ⟨Std.Refl.refl w, by simp⟩

/-- Directories are made one list behind the other. -/
theorem MadeDirs.trans {w₁ : World} {dirs dirs' : List Path} (h : MadeDirs w w₁ dirs)
    (h' : MadeDirs w₁ v dirs') : MadeDirs w v (dirs ++ dirs') :=
  ⟨IsTrans.trans _ _ _ h.1 h'.1, by rw [h'.2, h.2, List.append_assoc]⟩

/-- The directories of a list of entries are those of its head and of its tail. -/
theorem scanned_cons : scanned dest pipeMode filter (entry :: es) =
    scanned dest pipeMode filter [entry] ++ scanned dest pipeMode filter es := by
  cases pipeMode with
  | true => rfl
  | false =>
      simp only [scanned, Bool.false_eq_true, if_false]
      rw [← List.flatMap_append, ← List.filter_append, selected, selected, selected,
        ← List.filter_append, List.singleton_append]

/-- A directory entry whose name may be joined is made. -/
theorem makeDirectory_run (hos : os.Succeeds) (dest : Path) (hdir : entry.isDirectory)
    (h : scanJoins pipeMode filter entry → SafeName entry.fileName) (w : World) :
    ∃ v, (makeDirectory os dest pipeMode filter entry).run w = (.ok (), v) ∧
      MadeDirs w v (scanned dest pipeMode filter [entry]) := by
  rw [makeDirectory]
  by_cases hmade : (!pipeMode && shouldExtract entry filter) = true
  · rw [if_pos hmade]
    rw [Bool.and_eq_true, Bool.not_eq_true'] at hmade
    obtain ⟨path, hjoin⟩ := (h (by simp [scanJoins, hmade])).joins dest
    rw [hjoin, Run.ofExcept, pure_bind]
    refine ⟨_, Run.mapErr_of_ok (hos.mkdirAll_run path w),
      Adds.one (P := fun e => e.isQuiet) rfl w, ?_⟩
    simp [scanned, selected, hmade, hdir, entryDirectories, hjoin, Except.toOption,
      Unegg.directories, Event.madeDir]
  · rw [if_neg hmade]
    have hnone : scanned dest pipeMode filter [entry] = [] := by
      cases pipeMode with
      | true => rfl
      | false =>
          have hsel : shouldExtract entry filter = false := by simpa using hmade
          simp [scanned, selected, hsel]
    rw [hnone]
    exact ⟨w, rfl, .none w⟩

/-- The scan of such an entry makes its directory and goes on. -/
theorem scanEntry_run (hos : os.Succeeds) (dest : Path)
    (h : scanJoins pipeMode filter entry → SafeName entry.fileName) (fi : Nat) (spans : Spans)
    (w : World) :
    ∃ spans' v, (scanEntry os dest pipeMode filter entry fi spans).run w = (.ok spans', v) ∧
      MadeDirs w v (scanned dest pipeMode filter [entry]) := by
  rw [scanEntry]
  split
  · next hdir =>
      obtain ⟨v, hrun, hmade⟩ := makeDirectory_run hos dest hdir h w
      exact ⟨spans, v, by rw [Run.bind_of_ok hrun]; rfl, hmade⟩
  · next hdir =>
      have hnone : scanned dest pipeMode filter [entry] = [] := by
        by_cases hsel : shouldExtract entry filter <;> simp [scanned, selected, hsel, hdir]
      obtain ⟨path, hjoin⟩ := (h (by simp [scanJoins, hdir])).joins dest
      rw [hjoin, hnone]
      exact ⟨_, w, rfl, .none w⟩

/-- The scan stops at a name that may not be joined, before anything is made. -/
theorem scanEntry_stops {e : EggError} (hjoins : scanJoins pipeMode filter entry)
    (he : joinError dest entry = some e) (fi : Nat) (spans : Spans) (w : World) :
    (scanEntry os dest pipeMode filter entry fi spans).run w = (.err e, w) := by
  have hjoin : safeJoin dest entry.fileName = .error e := by
    rw [joinError] at he
    split at he
    · cases he
    · next e' hjoin => rw [hjoin, Option.some.inj he]
  rw [scanEntry]
  by_cases hdir : entry.isDirectory = true
  · have hmade : (!pipeMode && shouldExtract entry filter) = true := by
      simpa [scanJoins, hdir] using hjoins
    rw [if_pos hdir, makeDirectory, if_pos hmade, hjoin]
    rfl
  · rw [if_neg hdir, hjoin]
    rfl

/-- **The scan gets through** when every name it joins is safe. -/
theorem scanEntries_run (hos : os.Succeeds) (dest : Path) {es : List (EggFileEntry × Nat)}
    (h : ∀ p ∈ es, scanJoins pipeMode filter p.1 → SafeName p.1.fileName) (spans : Spans)
    (w : World) :
    ∃ spans' v, (scanEntries os dest pipeMode filter es spans).run w = (.ok spans', v) ∧
      MadeDirs w v (scanned dest pipeMode filter (es.map Prod.fst)) := by
  induction es generalizing spans w with
  | nil =>
      refine ⟨spans, w, rfl, ?_⟩
      cases pipeMode <;> exact .none w
  | cons p es ih =>
      rw [List.forall_mem_cons] at h
      obtain ⟨spans₁, w₁, hfirst, hmade⟩ := scanEntry_run hos dest h.1 p.2 spans w
      obtain ⟨spans', v, hrest, hmade'⟩ := ih h.2 spans₁ w₁
      refine ⟨spans', v, ?_, ?_⟩
      · rw [scanEntries, Run.bind_of_ok hfirst, hrest]
      · rw [List.map_cons, scanned_cons]
        exact hmade.trans hmade'

/-- **The scan stops** at the first name that cannot be joined. -/
theorem scanEntries_stops (hos : os.Succeeds) {es : List (EggFileEntry × Nat)} {e : EggError}
    (h : scanError dest pipeMode filter (es.map Prod.fst) = some e) (spans : Spans) (w : World) :
    ((scanEntries os dest pipeMode filter es spans).run w).1 = .err e := by
  induction es generalizing spans w with
  | nil => simp [scanError] at h
  | cons p es ih =>
      rw [List.map_cons] at h
      have hgo : (scanJoins pipeMode filter p.1 → SafeName p.1.fileName) →
          scanError dest pipeMode filter (es.map Prod.fst) = some e →
          ((scanEntries os dest pipeMode filter (p :: es) spans).run w).1 = .err e := by
        intro hname hrest
        obtain ⟨spans₁, w₁, hfirst, -⟩ := scanEntry_run hos dest hname p.2 spans w
        rw [scanEntries, Run.bind_of_ok hfirst]
        exact ih hrest spans₁ w₁
      by_cases hjoins : scanJoins pipeMode filter p.1 = true
      · rw [scanError_cons_of_joins hjoins, Option.or_eq_some_iff] at h
        obtain he | ⟨hnone, hrest⟩ := h
        · rw [scanEntries, Run.bind_of_err (scanEntry_stops hjoins he p.2 spans w)]
        · exact hgo (fun _ => joinError_eq_none.mp hnone) hrest
      · exact hgo (fun h => absurd h hjoins) (scanError_cons_of_not hjoins ▸ h)

/-! ## the stream -/

/-- The names of the files are safe. -/
abbrev SafeFiles (entries : List EggFileEntry) : Prop :=
  ∀ entry ∈ regular entries, SafeName entry.fileName

/-- Behind the scan the names of the files may be joined. -/
theorem safeFiles_of_scanError (h : scanError dest pipeMode filter entries = none) :
    SafeFiles entries := by
  intro entry hentry
  obtain ⟨hmem, hfile⟩ := List.mem_filter.mp hentry
  exact scanError_eq_none.mp h entry hmem (by simp [scanJoins, hfile])

/-- The sink of an archive's files. -/
abbrev filesConfig (entries : List EggFileEntry) (dest : Path) (pipeMode : Bool)
    (filter : Option (List String)) : SinkConfig :=
  solidConfig entries dest pipeMode filter (.ofEntries entries)

/-- There is one span for each file. -/
theorem length_filesConfig :
    (filesConfig entries dest pipeMode filter).fileSpans.length = (regular entries).length := by
  have h := congrArg List.length (sizes_ofEntries entries)
  rwa [List.length_map, List.length_map] at h

/-- The outputs of the spans are those of the files. -/
theorem outputsOf_filesConfig : (filesConfig entries dest pipeMode filter).outputsOf fs =
    fileOutputs dest pipeMode filter entries fs := by
  simp [SinkConfig.outputsOf, solidConfig, entries_ofEntries, fileOutputs, List.zip_map_left,
    List.filterMap_map]

/-- The spans point to entries whose names may be joined. -/
theorem filesConfig_checked (h : SafeFiles entries) :
    (filesConfig entries dest pipeMode filter).Checked := by
  intro i hi
  have hentries := congrArg (·[i]?) (entries_ofEntries entries)
  rw [length_filesConfig] at hi
  simp only [List.getElem?_map, List.getElem?_eq_getElem hi, Option.map_some] at hentries
  obtain ⟨span, hspan, hentry⟩ := Option.map_eq_some_iff.mp hentries
  refine ⟨(regular entries)[i], ?_, h _ (List.getElem_mem hi)⟩
  have hspan' : (filesConfig entries dest pipeMode filter).fileSpans[i]? = some span := hspan
  rw [SinkConfig.entryAt, hspan']
  exact hentry

/-- Cleaning up is no matter of how a stream ended. -/
theorem afterStream_outcome {Q : Unit → World → World → Prop}
    {x y : Outcome EggError Unit × (SolidSink × World)}
    (h : Run.Alike (fun u p q => Q u p.2 q.2) (fun _ _ => True) x y) :
    Run.Alike Q (fun _ _ => True) (afterStream pipeMode x) (afterStream pipeMode' y) := by
  cases h with
  | ok h => exact .ok h
  | err h => exact .err trivial
  | panic h => exact .panic trivial
  | hang h => exact .hang trivial

/-- The stream is cut into the same files wherever they go. -/
theorem alike_extractStream (hos : os.Succeeds) (h : SafeFiles entries) (w w' : World) :
    Run.Alike (fun _ v v' => ∃ fs : List (List UInt8), fs.length = (regular entries).length ∧
        Made w v (fileOutputs dest pipeMode filter entries fs) ∧
        Made w' v' (fileOutputs dest pipeMode' filter' entries fs)) (fun _ _ => True)
      ((extractStream crates os archive entries dest password pipeMode filter
        (.ofEntries entries)).run w)
      ((extractStream crates os archive entries dest password pipeMode' filter'
        (.ofEntries entries)).run w') := by
  refine Run.Alike.bind (alike_onReader _ w w') ?_
  rintro stream w w' ⟨rfl, rfl⟩
  change Run.Alike _ _
    ((decodeStream (solidMethod entries) crates os entries dest pipeMode filter
      (.ofEntries entries) stream).run w)
    ((decodeStream (solidMethod entries) crates os entries dest pipeMode' filter'
      (.ofEntries entries) stream).run w')
  rw [decodeStream_run, decodeStream_run]
  have hcfg : (filesConfig entries dest pipeMode filter).Checked := filesConfig_checked h
  have hcfg' : (filesConfig entries dest pipeMode' filter').Checked := filesConfig_checked h
  have halike := SolidSink.together_decompressInto hos hcfg hcfg' rfl rfl
    (decompressSolid crates (solidMethod entries) stream.length
      (((Spans.ofEntries entries).crcSpans.map Prod.fst).sum % 2 ^ 64)) stream w w'
  rw [length_filesConfig] at halike
  simp only [outputsOf_filesConfig] at halike
  exact afterStream_outcome halike

/-! ## the branch without data -/

/-- The contents of files that have none. -/
def emptyFiles (entries : List EggFileEntry) : List (List UInt8) :=
  (regular entries).map fun _ => []

/-- Empty files are put out empty. -/
theorem fileOutputs_emptyFiles : fileOutputs dest pipeMode filter entries (emptyFiles entries) =
    (regular entries).filterMap fun entry =>
      (outputTarget dest pipeMode filter entry).map (·, []) := by
  rw [fileOutputs, emptyFiles, ← List.map_prod_left_eq_zip, List.filterMap_map]
  rfl

/-- A file without data is created empty if the filter lets it through. -/
theorem createEmpty_run (hos : os.Succeeds) (dest : Path) (filter : Option (List String))
    {span : Nat × Nat}
    (hentry : entries[span.1]? = some entry) (hname : SafeName entry.fileName) {w₀ : World}
    {outs : List (Target × List UInt8)} (hmade : Made w₀ w outs) :
    ∃ v, (createEmpty os entries dest filter span).run w = (.ok (), v) ∧
      Made w₀ v (outs ++ ((outputTarget dest false filter entry).map (·, [])).toList) := by
  rw [createEmpty, hentry]
  obtain ⟨path, hjoin⟩ := hname.joins dest
  by_cases hsel : shouldExtract entry filter = true
  · obtain ⟨w₁, v, h₁, h₂, hmade'⟩ := hmade.create hos path
    refine ⟨v, ?_, by simpa [outputTarget, hsel, hjoin, Except.toOption] using hmade'⟩
    simp only [hsel, hjoin, Bool.not_true, Bool.false_eq_true, if_false]
    rw [Run.ofExcept, pure_bind, createFile, Run.bind_of_ok (Run.mapErr_of_ok h₁),
      Run.mapErr_of_ok h₂]
  · refine ⟨w, ?_, by simpa [outputTarget, hsel] using hmade⟩
    simp only [hsel, Bool.not_false, if_true]
    rfl

/-- The empty files of some numbered entries. -/
theorem createEmpties_run (hos : os.Succeeds) (dest : Path) (filter : Option (List String))
    {es : List (EggFileEntry × Nat)}
    (hes : ∀ p ∈ es, entries[p.2]? = some p.1 ∧ SafeName p.1.fileName) {w₀ : World}
    {outs : List (Target × List UInt8)} (hmade : Made w₀ w outs) :
    ∃ v, (Run.forEach (createEmpty os entries dest filter) (Spans.of es).fileSpans).run w =
        (.ok (), v) ∧ Made w₀ v (outs ++ es.filterMap fun p =>
          (outputTarget dest false filter p.1).map (·, [])) := by
  induction es generalizing w outs with
  | nil => exact ⟨w, rfl, by simpa using hmade⟩
  | cons p es ih =>
      rw [List.forall_mem_cons] at hes
      have hspan : entries[(p.2, p.1.uncompressedSize.toNat).1]? = some p.1 := hes.1.1
      obtain ⟨w₁, hfirst, hmade₁⟩ := createEmpty_run hos dest filter hspan hes.1.2 hmade
      obtain ⟨v, hrest, hmade'⟩ := ih hes.2 hmade₁
      refine ⟨v, ?_, ?_⟩
      · rw [Spans.of, List.map_cons, Run.forEach, Run.bind_of_ok hfirst]
        exact hrest
      · rw [List.filterMap_cons]
        cases htarget : outputTarget dest false filter p.1 <;> simpa [htarget] using hmade'

/-- A file of the branch without data declares no bytes. -/
abbrev NoBytes (entries : List EggFileEntry) : Prop :=
  ∀ entry ∈ regular entries, entry.uncompressedSize.toNat = 0

/-- No file has bytes exactly if no span has a size. -/
theorem noBytes_iff : NoBytes entries ↔
    ¬ (Spans.ofEntries entries).fileSpans.any fun span => span.2 ≠ 0 := by
  have hsizes : (∀ size ∈ (Spans.ofEntries entries).fileSpans.map Prod.snd, size = 0) ↔
      NoBytes entries := by
    rw [sizes_ofEntries, List.forall_mem_map]
  rw [← hsizes, List.forall_mem_map]
  simp

/-- All files without data are created so. -/
theorem createEmptyFiles_run (hos : os.Succeeds) (h : SafeFiles entries)
    (hzero : NoBytes entries) (w : World) :
    ∃ v, (createEmptyFiles os entries dest filter (.ofEntries entries)).run w = (.ok (), v) ∧
      Made w v (fileOutputs dest false filter entries (emptyFiles entries)) := by
  rw [createEmptyFiles, if_neg (noBytes_iff.mp hzero), fileOutputs_emptyFiles, ← map_regularIdx,
    List.filterMap_map]
  refine createEmpties_run hos dest filter (fun p hp => ?_) .start
  refine ⟨getElem?_of_mem_zipIdx (List.mem_of_mem_filter hp), h p.1 ?_⟩
  rw [← map_regularIdx]
  exact List.mem_map_of_mem hp

/-! ## the times -/

/-- Setting a time succeeds and writes nothing. -/
theorem applyTime_run (dest : Path) (filter : Option (List String))
    (h : entry.isDirectory = false → SafeName entry.fileName) (w : World) :
    ∃ v, (applyTime dest filter entry).run w = (.ok (), v) ∧
      Adds (fun e => e.isQuiet ∧ e.madeDir = none) w v := by
  rw [applyTime]
  by_cases hskip : (entry.isDirectory || !shouldExtract entry filter) = true
  · rw [if_pos hskip]
    exact ⟨w, rfl, Std.Refl.refl w⟩
  · rw [if_neg hskip]
    cases entry.fileTime with
    | none => exact ⟨w, rfl, Std.Refl.refl w⟩
    | some ft =>
        have hdir : entry.isDirectory = false := by
          rw [Bool.or_eq_true, not_or, Bool.not_eq_true] at hskip
          exact hskip.1
        obtain ⟨path, hjoin⟩ := (h hdir).joins dest
        obtain ⟨v, hrun, hquiet⟩ := setFileTime_run path ft w
        refine ⟨v, ?_, hquiet⟩
        simp only [hjoin]
        rw [Run.ofExcept, pure_bind, hrun]

/-- Setting all of the times succeeds and writes nothing. -/
theorem applyTimes_run (dest : Path) (pipeMode : Bool) (filter : Option (List String))
    (h : SafeFiles entries) (w : World) :
    ∃ v, (applyTimes entries dest pipeMode filter).run w = (.ok (), v) ∧
      Adds (fun e => e.isQuiet ∧ e.madeDir = none) w v := by
  rw [applyTimes]
  cases pipeMode with
  | true => exact ⟨w, rfl, Std.Refl.refl w⟩
  | false =>
      rw [if_neg (by simp)]
      refine Run.forEach_total (fun entry hentry w => ?_) w
      refine applyTime_run dest filter (fun hdir => h entry ?_) w
      exact List.mem_filter.mpr ⟨hentry, by simp [hdir]⟩

/-! ## what has been delivered -/

/-- Without a filter a file whose name may be joined goes somewhere. -/
theorem outputTarget_of_safe (dest : Path) (pipeMode : Bool) (h : SafeName entry.fileName) :
    ∃ t, outputTarget dest pipeMode none entry = some t := by
  obtain ⟨path, hjoin⟩ := h.joins dest
  cases pipeMode with
  | true => exact ⟨.stdout, by simp [outputTarget]⟩
  | false => exact ⟨.file path, by simp [outputTarget, hjoin, Except.toOption]⟩

/-- The outputs hold the contents that are delivered. -/
theorem fileOutputs_snd (h : SafeFiles entries) :
    (fileOutputs dest pipeMode filter entries fs).map Prod.snd =
      (deliveries filter entries fs).map Prod.snd := by
  rw [fileOutputs_eq]
  have hmem : ∀ p ∈ deliveries filter entries fs, SafeName p.1.fileName := fun p hp =>
    h p.1 (List.of_mem_zip (List.mem_of_mem_filter hp)).1
  generalize deliveries filter entries fs = ps at hmem ⊢
  induction ps with
  | nil => rfl
  | cons p ps ih =>
      rw [List.forall_mem_cons] at hmem
      obtain ⟨t, ht⟩ := outputTarget_of_safe dest pipeMode hmem.1
      rw [List.filterMap_cons, ht, Option.map_some, List.map_cons, List.map_cons, ih hmem.2]

/-- The directories above the outputs. -/
theorem mem_above_fileOutputs (hlen : fs.length = (regular entries).length) {d : Path} :
    (d ∈ (fileOutputs dest false filter entries fs).flatMap fun out => out.1.above) ↔
      ∃ entry ∈ regular (selected filter entries), d ∈ entryDirectories dest entry := by
  rw [← deliveries_fst hlen, fileOutputs_eq]
  simp only [List.mem_flatMap, List.mem_filterMap, List.mem_map, Option.map_eq_some_iff,
    outputTarget, shouldExtract_none, if_true, Bool.false_eq_true, if_false]
  constructor
  · rintro ⟨out, ⟨p, hp, t, ⟨path, hjoin, rfl⟩, rfl⟩, hd⟩
    have hdir : p.1.isDirectory = false := by
      have hreg := (List.of_mem_zip (List.mem_of_mem_filter hp)).1
      simpa using (List.mem_filter.mp hreg).2
    exact ⟨p.1, ⟨p, hp, rfl⟩, by simpa [entryDirectories, hjoin, hdir, Target.above] using hd⟩
  · rintro ⟨_, ⟨p, hp, rfl⟩, hd⟩
    have hdir : p.1.isDirectory = false := by
      have hreg := (List.of_mem_zip (List.mem_of_mem_filter hp)).1
      simpa using (List.mem_filter.mp hreg).2
    rw [entryDirectories] at hd
    cases hjoin : (safeJoin dest p.1.fileName).toOption with
    | none => simp [hjoin] at hd
    | some path =>
        refine ⟨_, ⟨p, hp, .file path, ⟨path, hjoin, rfl⟩, rfl⟩, ?_⟩
        simpa [hjoin, hdir, Target.above] using hd

/-- What the three parts of a solid extraction come to. -/
theorem Delivered.of_made {w₁ w₂ : World} (h : SafeFiles entries)
    (hlen : fs.length = (regular entries).length)
    (hscan : MadeDirs w w₁ (scanned dest pipeMode filter entries))
    (hmade : Made w₁ w₂ (fileOutputs dest pipeMode filter entries fs))
    (htimes : Adds (fun e => e.isQuiet ∧ e.madeDir = none) w₂ v) :
    Delivered dest pipeMode filter entries fs w v where
  length := hlen
  safe := fun entry hentry => by
    obtain ⟨hmem, hfile⟩ := List.mem_filter.mp hentry
    exact h entry (List.mem_filter.mpr ⟨List.mem_of_mem_filter hmem, hfile⟩)
  written := by
    have hwrote := (hmade.wrote.after hscan.1).adds (htimes.mono fun _ he => he.1)
    rw [hwrote.written, fileOutputs_snd h, List.flatMap_def]
  wrote := by
    rintro rfl
    exact (hmade.wrote.after hscan.1).adds (htimes.mono fun _ he => he.1)
  directories := by
    rintro rfl d
    rw [directories_adds (htimes.mono fun _ he => he.2), hmade.directories, hscan.2]
    rw [List.mem_append, List.mem_append, mem_above_fileOutputs hlen, or_assoc]
    refine or_congr_right ?_
    simp only [scanned, Bool.false_eq_true, if_false, List.mem_flatMap, List.mem_filter, regular]
    constructor
    · rintro (⟨entry, ⟨hsel, -⟩, hd⟩ | ⟨entry, ⟨hsel, -⟩, hd⟩)
      · exact ⟨entry, hsel, hd⟩
      · exact ⟨entry, hsel, hd⟩
    · rintro ⟨entry, hsel, hd⟩
      by_cases hdir : entry.isDirectory = true
      · exact .inl ⟨entry, ⟨hsel, hdir⟩, hd⟩
      · exact .inr ⟨entry, ⟨hsel, by simp [hdir]⟩, hd⟩

/-- The branch without data delivers empty files. -/
theorem withoutData_run (hos : os.Succeeds) (h : SafeFiles entries) (hzero : NoBytes entries)
    {w₁ : World} (hscan : MadeDirs w w₁ (scanned dest pipeMode filter entries)) :
    ∃ v, ((if pipeMode then pure () else createEmptyFiles os entries dest filter
          (.ofEntries entries) : Extract Unit) >>= fun _ =>
        applyTimes entries dest pipeMode filter).run w₁ = (.ok (), v) ∧
      Delivered dest pipeMode filter entries (emptyFiles entries) w v := by
  have hlen : (emptyFiles entries).length = (regular entries).length := List.length_map _
  cases pipeMode with
  | true =>
      refine ⟨w₁, rfl, hlen, fun entry hentry => ?_, ?_, fun hpipe => absurd hpipe (by simp),
        fun hpipe => absurd hpipe (by simp)⟩
      · obtain ⟨hmem, hfile⟩ := List.mem_filter.mp hentry
        exact h entry (List.mem_filter.mpr ⟨List.mem_of_mem_filter hmem, hfile⟩)
      · have hwritten : written w₁ = written w := by
          simpa using (Wrote.start.adds hscan.1).written
        have hnone : (deliveries filter entries (emptyFiles entries)).flatMap Prod.snd = [] := by
          rw [List.flatMap_eq_nil_iff]
          intro p hp
          have hmem := (List.of_mem_zip (List.mem_of_mem_filter hp)).2
          obtain ⟨entry, -, hempty⟩ := List.mem_map.mp hmem
          exact hempty.symm
        rw [hwritten, hnone, List.append_nil]
  | false =>
      obtain ⟨w₂, hrun, hmade⟩ := createEmptyFiles_run hos h hzero w₁
      obtain ⟨v, htimes, hquiet⟩ := applyTimes_run dest false filter h w₂
      refine ⟨v, ?_, .of_made h hlen hscan hmade hquiet⟩
      rw [if_neg (by simp), Run.bind_of_ok hrun, htimes]

/-! ## two extractions -/

/-- Behind a scan without error the stream is extracted and the times are set. -/
theorem extractAllSolid_scanned (hos : os.Succeeds) (crates : Crates) (archive : EggArchive)
    (password : Option String) (hscan : scanError dest pipeMode filter entries = none) (w : World) :
    ∃ w₁, MadeDirs w w₁ (scanned dest pipeMode filter entries) ∧
      (extractAllSolid crates os archive entries dest password pipeMode filter).run w =
        (extractSpans crates os archive entries dest password pipeMode filter (.ofEntries entries)
          >>= fun _ => applyTimes entries dest pipeMode filter).run w₁ := by
  have hnames : ∀ p ∈ entries.zipIdx, scanJoins pipeMode filter p.1 → SafeName p.1.fileName :=
    fun p hp => scanError_eq_none.mp hscan p.1
      (List.mem_of_getElem? (getElem?_of_mem_zipIdx hp))
  obtain ⟨spans, w₁, hrun, hmade⟩ := scanEntries_run hos dest hnames .empty w
  rw [List.zipIdx_map_fst] at hmade
  obtain rfl := spans_ofEntries hrun
  refine ⟨w₁, hmade, ?_⟩
  rw [extractAllSolid, Run.bind_of_ok hrun]

/-- Nothing is read exactly if there are no blocks. -/
theorem blockReads_eq_nil_iff :
    (Spans.ofEntries entries).blockReads = [] ↔ solidBlocks entries = [] := by
  rw [solidBlocks, ← map_regularIdx, List.flatMap_map]
  simp [Spans.ofEntries, Spans.of]

/-- Whether a solid archive without data is taken for one whose data was lost. -/
abbrev Lost (entries : List EggFileEntry) : Prop := solidBlocks entries = [] ∧ ¬ NoBytes entries

/-- A name that cannot be joined ends the extraction. -/
theorem extractAllSolid_scanError (hos : os.Succeeds) {e : EggError}
    (h : scanError dest pipeMode filter entries = some e) (w : World) :
    ((extractAllSolid crates os archive entries dest password pipeMode filter).run w).1 =
      .err e := by
  rw [← List.zipIdx_map_fst 0 entries] at h
  rw [extractAllSolid, Run.bind_of_err (Prod.ext (scanEntries_stops hos h .empty w) rfl)]

/-- On disk an archive that lost its data is refused. -/
theorem extractAllSolid_lost (hos : os.Succeeds)
    (hscan : scanError dest false filter entries = none) (hlost : Lost entries) (w : World) :
    ((extractAllSolid crates os archive entries dest password false filter).run w).1 =
      .err .corruptedFile := by
  obtain ⟨w₁, -, hrun⟩ := extractAllSolid_scanned hos crates archive password hscan w
  have hnil : ¬ (Spans.ofEntries entries).blockReads ≠ [] :=
    not_not.mpr (blockReads_eq_nil_iff.mpr hlost.1)
  have hsize := not_not.mp (mt noBytes_iff.mpr hlost.2)
  rw [hrun, extractSpans, if_neg hnil, if_neg (by simp), createEmptyFiles, if_pos hsize]
  rfl

/-- To standard output nothing is written of it. -/
theorem extractAllSolid_lost_pipe (hos : os.Succeeds)
    (hscan : scanError dest true filter entries = none) (hnil : solidBlocks entries = [])
    (w : World) :
    ((extractAllSolid crates os archive entries dest password true filter).run w).1 = .ok () := by
  obtain ⟨w₁, -, hrun⟩ := extractAllSolid_scanned hos crates archive password hscan w
  rw [hrun, extractSpans, if_neg (not_not.mpr (blockReads_eq_nil_iff.mpr hnil)), if_pos rfl]
  rfl

/-- **Two extractions of a solid archive** whose names are all right deliver the same
contents. -/
theorem alike_extractAllSolid (hos : os.Succeeds)
    (hscan : scanError dest pipeMode filter entries = none)
    (hscan' : scanError dest pipeMode' filter' entries = none) (hlost : ¬ Lost entries)
    (w w' : World) :
    Run.Alike (fun _ v v' => ∃ fs, Delivered dest pipeMode filter entries fs w v ∧
        Delivered dest pipeMode' filter' entries fs w' v') (fun _ _ => True)
      ((extractAllSolid crates os archive entries dest password pipeMode filter).run w)
      ((extractAllSolid crates os archive entries dest password pipeMode' filter').run w') := by
  have hfiles : SafeFiles entries := safeFiles_of_scanError hscan
  obtain ⟨w₁, hdirs, hrun⟩ := extractAllSolid_scanned hos crates archive password hscan w
  obtain ⟨w₁', hdirs', hrun'⟩ := extractAllSolid_scanned hos crates archive password hscan' w'
  rw [hrun, hrun', extractSpans, extractSpans]
  by_cases hblocks : solidBlocks entries = []
  · have hzero : NoBytes entries := not_not.mp fun hzero => hlost ⟨hblocks, hzero⟩
    have hnil : ¬ (Spans.ofEntries entries).blockReads ≠ [] :=
      not_not.mpr (blockReads_eq_nil_iff.mpr hblocks)
    rw [if_neg hnil, if_neg hnil]
    obtain ⟨v, hdone, hdelivered⟩ := withoutData_run hos hfiles hzero hdirs
    obtain ⟨v', hdone', hdelivered'⟩ := withoutData_run hos hfiles hzero hdirs'
    rw [hdone, hdone']
    exact .ok ⟨emptyFiles entries, hdelivered, hdelivered'⟩
  · have hne : (Spans.ofEntries entries).blockReads ≠ [] := blockReads_ne_nil hblocks
    rw [if_pos hne, if_pos hne]
    refine Run.Alike.bind (alike_extractStream hos hfiles w₁ w₁') ?_
    rintro u w₂ w₂' ⟨fs, hlen, hmade, hmade'⟩
    obtain ⟨v, htimes, hquiet⟩ := applyTimes_run dest pipeMode filter hfiles w₂
    obtain ⟨v', htimes', hquiet'⟩ := applyTimes_run dest pipeMode' filter' hfiles w₂'
    rw [htimes, htimes']
    exact .ok ⟨fs, .of_made hfiles hlen hdirs hmade hquiet,
      .of_made hfiles hlen hdirs' hmade' hquiet'⟩

end Unegg
