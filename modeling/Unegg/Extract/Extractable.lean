import Unegg.Extract.Readable
import Unegg.Extract.SolidReadable

/-!
# Unegg.Extract.Extractable

The archives that extract: entry by entry or as a stream, what is asked for can
be read, to the contents that are then delivered (`extraction_ok_iff`).
-/

namespace Unegg

open Prog

/-- Every name of the filter matches an entry. -/
def NamesMatched (filter : Option (List String)) (entries : List EggFileEntry) : Prop :=
  ∀ files, filter = some files → ∀ name ∈ files, ∃ entry ∈ entries, matchesFilter entry.fileName name

/-- What a filter selects of an archive can be extracted to a directory, with
these contents of its files. -/
inductive Extractable (crates : Crates) (archive : EggArchive) (dest : Path)
    (password : Option String) (filter : Option (List String)) : List (List UInt8) → Prop where
  /-- Each entry on its own. -/
  | entries {fs : List (List UInt8)} (hsolid : archive.isSolid = false)
      (hnames : ∀ entry ∈ selected filter archive.entries, SafeName entry.fileName)
      (hread : List.Forall₂ (fun entry f => shouldExtract entry filter →
        Readable crates archive password entry f) (regular archive.entries) fs) :
      Extractable crates archive dest password filter fs
  /-- All entries as one stream. -/
  | stream {fs : List (List UInt8)} (hsolid : archive.isSolid = true)
      (hscan : scanError dest false filter archive.entries = none)
      (hblocks : solidBlocks archive.entries ≠ [])
      (hread : SolidReadable crates archive password archive.entries fs) :
      Extractable crates archive dest password filter fs
  /-- A stream that would be empty. -/
  | noData (hsolid : archive.isSolid = true)
      (hscan : scanError dest false filter archive.entries = none)
      (hblocks : solidBlocks archive.entries = []) (hzero : NoBytes archive.entries) :
      Extractable crates archive dest password filter (emptyFiles archive.entries)

variable {crates : Crates} {os : Os} {archive : EggArchive} {dest : Path}
  {password : Option String} {filter : Option (List String)} {w v : World}

theorem checkMatched_ok : (checkMatched archive filter).run w = (.ok (), v) ↔
    NamesMatched filter archive.entries ∧ v = w := by
  cases filter with
  | none =>
      have hnames : NamesMatched none archive.entries := fun _ h => nomatch h
      simp [checkMatched, hnames, eq_comm]
  | some files =>
      have hiff : unmatched archive files = none ↔ NamesMatched (some files) archive.entries := by
        rw [unmatched, List.find?_eq_none, NamesMatched]
        simp
      rw [checkMatched]
      cases hfind : unmatched archive files with
      | none => simp [hiff.mp hfind, eq_comm]
      | some name => simp [← hiff, hfind]

/-! ## entry by entry -/

/-- What can be read of the entries that pass the filter. -/
theorem forall₂_readable (hos : os.Succeeds) (hcrates : crates.StopsOnError)
    (hok : entriesOutcome crates os archive dest password (selected filter archive.entries) =
      .ok ()) :
    (∀ entry ∈ selected filter archive.entries, SafeName entry.fileName) ∧
      List.Forall₂ (fun entry f => shouldExtract entry filter →
        Readable crates archive password entry f) (regular archive.entries)
        ((regular archive.entries).map (entryContent crates os archive dest password)) := by
  have hread : ∀ entry ∈ selected filter archive.entries, SafeName entry.fileName ∧
      Readable crates archive password entry
        (entryContent crates os archive dest password entry) := by
    intro entry hentry
    have hentry := entriesOutcome_ok.mp hok entry hentry
    obtain ⟨hname, content, hread⟩ := readable_of_ok hcrates (Prod.ext hentry rfl)
    have hsame := (@entryOutcome_of_readable crates os archive dest password entry content hos
      hname hread).2
    exact ⟨hname, hsame ▸ hread⟩
  refine ⟨fun entry hentry => (hread entry hentry).1, ?_⟩
  rw [List.forall₂_map_right_iff, List.forall₂_same]
  exact fun entry hentry hsel =>
    (hread entry (List.mem_filter.mpr ⟨List.mem_of_mem_filter hentry, hsel⟩)).2

/-- Contents that can be read are those that are delivered. -/
theorem deliveries_readable (hos : os.Succeeds) {es : List EggFileEntry} {fs : List (List UInt8)}
    (hnames : ∀ entry ∈ es, shouldExtract entry filter → SafeName entry.fileName)
    (h : List.Forall₂ (fun entry f => shouldExtract entry filter →
      Readable crates archive password entry f) es fs) :
    ((es.zip fs).filter fun p => shouldExtract p.1 filter) =
      (es.zip (es.map (entryContent crates os archive dest password))).filter
        fun p => shouldExtract p.1 filter := by
  induction h with
  | nil => rfl
  | @cons entry f es fs hread _ ih =>
      rw [List.forall_mem_cons] at hnames
      rw [List.map_cons, List.zip_cons_cons, List.zip_cons_cons, List.filter_cons,
        List.filter_cons, ih hnames.2]
      split
      · next hsel =>
          have hsame := (@entryOutcome_of_readable crates os archive dest password entry f hos
            (hnames.1 hsel) (hread hsel)).2
          rw [hsame]
      · rfl

/-- Deliveries are told by what passes the filter. -/
theorem Delivered.congr {entries : List EggFileEntry} {fs fs' : List (List UInt8)}
    {pipeMode : Bool} (h : Delivered dest pipeMode filter entries fs w v)
    (hlen : fs'.length = (regular entries).length)
    (hsame : deliveries filter entries fs' = deliveries filter entries fs) :
    Delivered dest pipeMode filter entries fs' w v where
  length := hlen
  safe := h.safe
  written := by rw [h.written, hsame]
  wrote := by
    rw [fileOutputs_eq, hsame, ← fileOutputs_eq]
    exact h.wrote
  directories := h.directories

/-! ## both ways of extracting -/

/-- What can be extracted is delivered. -/
theorem Extractable.run {fs : List (List UInt8)} (hos : os.Succeeds)
    (h : Extractable crates archive dest password filter fs)
    (hmatched : NamesMatched filter archive.entries) (w : World) :
    ∃ v, (extraction crates os archive dest password false filter).run w = (.ok (), v) ∧
      Delivered dest false filter archive.entries fs w v := by
  suffices hbefore : ∃ v, Delivered dest false filter archive.entries fs w v ∧
      (extraction crates os archive dest password false filter).run w =
        (checkMatched archive filter).run v by
    obtain ⟨v, hdelivered, hrun⟩ := hbefore
    exact ⟨v, by rw [hrun, checkMatched_ok.mpr ⟨hmatched, rfl⟩], hdelivered⟩
  cases h with
  | entries hsolid hnames hread =>
      have hok : entriesOutcome crates os archive dest password
          (selected filter archive.entries) = .ok () := by
        refine entriesOutcome_ok.mpr fun entry hentry => ?_
        obtain ⟨hmem, hsel⟩ := List.mem_filter.mp hentry
        by_cases hdir : entry.isDirectory
        · exact (entryOutcome_of_readable hos (hnames entry hentry) (.directory hdir)).1
        · obtain ⟨f, -, hf⟩ := (exists_of_forall₂ hread).1 entry
            (List.mem_filter.mpr ⟨hmem, by simpa using hdir⟩)
          exact (entryOutcome_of_readable hos (hnames entry hentry) (hf hsel)).1
      have hrun : (Run.forEach (extractEntry crates os archive dest password false)
          (selected filter archive.entries)).run w = (.ok (), _) :=
        Prod.ext ((entries_determined hos false _ w).1.trans hok) rfl
      have hsafe : ∀ entry ∈ regular archive.entries, shouldExtract entry filter →
          SafeName entry.fileName := fun entry hentry hsel =>
        hnames entry (List.mem_filter.mpr ⟨List.mem_of_mem_filter hentry, hsel⟩)
      refine ⟨_, (entries_delivered hos false filter archive.entries w hok).congr
        hread.length_eq.symm (deliveries_readable hos hsafe hread), ?_⟩
      rw [extraction_entries _ _ _ _ _ _ _ hsolid, Run.bind_of_ok hrun]
  | stream hsolid hscan hblocks hread =>
      obtain ⟨v, hrun, hdelivered⟩ := extractAllSolid_run hos hscan hblocks hread w
      exact ⟨v, hdelivered, by rw [extraction_solid _ _ _ _ _ _ _ hsolid, Run.bind_of_ok hrun]⟩
  | noData hsolid hscan hblocks hzero =>
      obtain ⟨v, hrun, hdelivered⟩ := extractAllSolid_noData hos hscan hblocks hzero w
      exact ⟨v, hdelivered, by rw [extraction_solid _ _ _ _ _ _ _ hsolid, Run.bind_of_ok hrun]⟩

/-- **Exactly what can be extracted is.** -/
theorem extraction_ok_iff (hos : os.Succeeds) (hcrates : crates.StopsOnError) (w : World) :
    ((extraction crates os archive dest password false filter).run w).1 = .ok () ↔
      NamesMatched filter archive.entries ∧
        ∃ fs, Extractable crates archive dest password filter fs := by
  refine ⟨fun h => ?_, fun ⟨hmatched, fs, hfs⟩ => ?_⟩
  · have hrun : (extraction crates os archive dest password false filter).run w = (.ok (), _) :=
      Prod.ext h rfl
    by_cases hsolid : archive.isSolid = true
    · rw [extraction_solid _ _ _ _ _ _ _ hsolid, Run.bind_ok] at hrun
      obtain ⟨_, w₁, hall, hcheck⟩ := hrun
      refine ⟨(checkMatched_ok.mp hcheck).1, ?_⟩
      obtain ⟨hscan, hread⟩ := solidReadable_of_ok hos hcrates (congrArg Prod.fst hall)
      split at hread
      · next hnil => exact ⟨_, .noData hsolid hscan hnil (hread.resolve_left (by simp))⟩
      · next hblocks =>
          obtain ⟨fs, hfs⟩ := hread
          exact ⟨fs, .stream hsolid hscan hblocks hfs⟩
    · rw [Bool.not_eq_true] at hsolid
      rw [extraction_entries _ _ _ _ _ _ _ hsolid, Run.bind_ok] at hrun
      obtain ⟨_, w₁, hall, hcheck⟩ := hrun
      have hok : entriesOutcome crates os archive dest password (selected filter archive.entries) =
          .ok () := (entries_determined hos false _ w).1.symm.trans (congrArg Prod.fst hall)
      obtain ⟨hnames, hread⟩ := forall₂_readable hos hcrates hok
      exact ⟨(checkMatched_ok.mp hcheck).1, _, .entries hsolid hnames hread⟩
  · obtain ⟨v, hrun, -⟩ := hfs.run hos hmatched w
    rw [hrun]

end Unegg
