import Unegg.Volume.Chain
import Unegg.Volume.Reader

/-!
# Unegg.Volume.Archive

Opening a split archive.

The reader that `try_open` returns stands for a cursor at the start of the
joined volumes (`tryOpen_at`), so parsing it is parsing them
(`tryOpen_parses`): the same archive or the same error, however the operating
system cuts the reads.
-/

namespace Unegg

open Prog Bytes MultiVolumeReader

variable {dir : List DirEntry} {first : List UInt8} {later : List (List UInt8)}

/-! ## the segments -/

theorem tiled_of_contiguous {lo hi : Nat} {segs : List Segment} (h : Contiguous lo segs hi)
    (hplaced : ∀ s ∈ segs, s.Placed) : Tiled lo segs := by
  induction segs generalizing lo with
  | nil => trivial
  | cons s segs ih =>
      rw [List.forall_mem_cons] at hplaced
      exact ⟨h.1, hplaced.1, ih h.2 hplaced.2⟩

/-- The segments of a walked chain are files of the directory, behind the first one. -/
theorem Walked.segment_data {chain : Chain} (hw : Walked dir first later chain) {s : Segment}
    (hs : s ∈ chain.segments) :
    s.physStart + s.dataSize = s.file.data.length ∧
      (s.file.data = first ∨ ∃ entry ∈ dir, entry.bytes = s.file.data) := by
  obtain ⟨segs, hsegs, hlater⟩ := hw.segments
  rw [hsegs, List.mem_cons] at hs
  rcases hs with rfl | hs
  · exact ⟨Nat.zero_add _, .inl rfl⟩
  · obtain ⟨v, hv, hof⟩ : ∃ v ∈ later, ContinuationOf v s := by
      clear hsegs hw
      induction hlater with
      | nil => simp at hs
      | @cons v t vs ts hof _ ih =>
          rcases List.mem_cons.mp hs with rfl | hs
          · exact ⟨v, List.mem_cons_self, hof⟩
          · obtain ⟨w, hw, hof'⟩ := ih hs
            exact ⟨w, List.mem_cons_of_mem _ hw, hof'⟩
    obtain ⟨entry, hmem, -, hbytes⟩ := hw.follows.present hv
    exact ⟨by rw [hof.data]; exact hof.size, .inr ⟨entry, hmem, by rw [hof.data, hbytes]⟩⟩

/-! ## the reader -/

/-- No file is so long that a seek in it fails. -/
def SmallFiles (dir : List DirEntry) (first : List UInt8) : Prop :=
  first.length < 2 ^ 61 ∧ ∀ entry ∈ dir, entry.bytes.length < 2 ^ 61

instance (dir : List DirEntry) (first : List UInt8) : Decidable (SmallFiles dir first) :=
  inferInstanceAs (Decidable (_ ∧ _))

/-- The reader that is returned stands at the start of what it joins. -/
theorem tryOpen_at {r : MultiVolumeReader} {u u' : Unit}
    (h : (tryOpen dir first).run u = (.ok (some r), u')) (hsmall : SmallFiles dir first)
    (amounts : Nat → Nat) : VolumeReader.At (contents r.segments) 0 ⟨r, amounts⟩ := by
  obtain ⟨later, chain, hw, -, rfl⟩ := tryOpen_ok h
  have hfile : ∀ s ∈ chain.segments,
      s.physStart + s.dataSize = s.file.data.length ∧ s.file.data.length < 2 ^ 61 := by
    intro s hs
    obtain ⟨hsize, hfirst | ⟨entry, hmem, hbytes⟩⟩ := hw.segment_data hs
    · exact ⟨hsize, hfirst ▸ hsmall.1⟩
    · exact ⟨hsize, hbytes ▸ hsmall.2 entry hmem⟩
  have htiled : Tiled 0 chain.segments := tiled_of_contiguous hw.contiguous fun s hs => by
    obtain ⟨hsize, hlt⟩ := hfile s hs
    exact ⟨hsize.le, by omega⟩
  obtain ⟨segs, hsegs, -⟩ := hw.segments
  rw [hsegs] at htiled hfile ⊢
  exact ⟨new_represents htiled rfl, fun s hs => (hfile s hs).2, Nat.zero_le _⟩

/-- The archive that is opened has the reader as parsing leaves it. -/
theorem openArchive_run (pages : CodePages) (c : Cursor) :
    (EggArchive.open' pages).run c =
      (((Reader.openArchive pages).run c).1.map fun o =>
        o.archive ((Reader.openArchive pages).run c).2, ((Reader.openArchive pages).run c).2) := by
  rw [Reader.openArchive_cursor, Run.bind_run]
  rcases (Reader.openArchive pages : Reader.Parse Cursor _).run c with ⟨_ | _ | _ | _, c'⟩ <;> rfl

/-- A reader at the start of its data parses it as a cursor does. -/
theorem VolumeReader.At.parses {data : List UInt8} {v : VolumeReader} (h : At data 0 v)
    (hdata : data.length < 2 ^ 61) (pages : CodePages) :
    ∃ outcome v' c, (Reader.openArchive pages).run v = (outcome, v') ∧
      (EggArchive.open' pages).run ⟨data, 0⟩ = (outcome.map fun o => o.archive c, c) ∧
      ∀ o, outcome = .ok o → Represents data v'.reader c.pos := by
  have hfollows := Reader.follows_openArchive (VolumeReader.emulates hdata) (by omega) pages 0 v
    trivial h
  refine ⟨_, _, _, Prod.ext hfollows.outcome.symm rfl, openArchive_run pages _, fun o ho => ?_⟩
  obtain ⟨⟨-, hstands⟩, -⟩ := hfollows.of_ok ho
  exact hstands.represents

/-- **Opening a split archive** is opening what its volumes join to, whatever
the reads deliver: the same archive, with the reader where the cursor is, or the
same error. -/
theorem tryOpen_parses {r : MultiVolumeReader} {u u' : Unit}
    (h : (tryOpen dir first).run u = (.ok (some r), u')) (hsmall : SmallFiles dir first)
    (htotal : r.totalSize < 2 ^ 61) (amounts : Nat → Nat) (pages : CodePages) :
    ∃ outcome v c, (Reader.openArchive pages).run (⟨r, amounts⟩ : VolumeReader) = (outcome, v) ∧
      (EggArchive.open' pages).run ⟨contents r.segments, 0⟩ =
        (outcome.map fun o => o.archive c, c) ∧
      ∀ o, outcome = .ok o → Represents (contents r.segments) v.reader c.pos := by
  have hat := tryOpen_at h hsmall amounts
  have htotal_eq : r.totalSize = _ := hat.represents.consistent.total_eq
  exact hat.parses (htotal_eq ▸ htotal) pages

/-- Two volumes of an archive with a comment, which is cut in the comment. -/
def commentFirst : List UInt8 :=
  le32 sigEggHeader ++ [0, 1, 1, 0, 0, 0, 0, 0, 0, 0] ++ le32 sigSplitInfo ++ [0, 8, 0] ++ le32 0 ++
    le32 2 ++ le32 sigEndMarker ++ le32 sigComment ++ [0, 2, 0, 0x68]

@[inherit_doc commentFirst]
def commentLater : List UInt8 :=
  le32 sigEggHeader ++ [0, 1, 2, 0, 0, 0, 0, 0, 0, 0] ++ le32 sigSplitInfo ++ [0, 8, 0] ++ le32 1 ++
    le32 0 ++ le32 sigEndMarker ++ [0x69] ++ le32 sigEndMarker

/-- The reader of the two. -/
def commentReader : MultiVolumeReader :=
  .new [⟨⟨commentFirst, 0⟩, 0, 0, 41⟩, ⟨⟨commentLater, 29⟩, 33, 41, 5⟩]

theorem tryOpen_parses_comment :
    ∃ outcome v c,
      (Reader.openArchive CodePages.blank).run (⟨commentReader, fun _ => 1⟩ : VolumeReader) =
        (outcome, v) ∧
      (EggArchive.open' CodePages.blank).run ⟨contents commentReader.segments, 0⟩ =
        (outcome.map fun o => o.archive c, c) ∧
      ∀ o, outcome = .ok o → Represents (contents commentReader.segments) v.reader c.pos :=
  have hopen : (tryOpen [⟨false, commentFirst⟩, ⟨true, [1]⟩, ⟨true, commentLater⟩] commentFirst).run
      () = (.ok (some commentReader), ()) := by
    decide +kernel
  tryOpen_parses hopen (by decide +kernel) (by decide +kernel) _ _

end Unegg
