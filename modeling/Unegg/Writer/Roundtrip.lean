import Unegg.Extract.Readable
import Unegg.Writer.Restored

/-!
# Unegg.Writer.Roundtrip

What the writer packs the program extracts (`PackedArchive.extracts`): opening
the bytes of an archive that is not solid and extracting it, or a selection of
it, leaves every file with its content, whatever the encodings, the locks and
the layout of the records.
-/

namespace Unegg

open Prog Bytes Crc32

variable {crates : Crates} {os : Os} {archive : EggArchive} {dest : Path}
  {password : Option String} {filter : Option (List String)} {entry : EggFileEntry}
  {pwd : String} {f : PackedFile}

/-! ## blocks -/

/-- The block of a chunk decodes to its content, and the keys go on. -/
theorem Chunk.decodes {c : Chunk} (hc : Encodes crates c.methodByte c.encoded c.content)
    {d : Option Decryptor} {p : Nat}
    (hdata : blockData archive ((c.block crates d).block p) = (c.block crates d).data) :
    BlockDecodes crates archive ((c.block crates d).block p) d c.content
      (encryptSome crates c.encoded d).2 := by
  have hsize : (UInt32.ofNat c.content.length).toNat = c.content.length :=
    UInt32.toNat_ofNat_of_lt' c.contentFits
  have hback : decryptSome crates (encryptSome crates c.encoded d).1 d = _ :=
    decryptSome_encryptSome c.encoded d
  have hrecord : recordBlock crates archive ((c.block crates d).block p) d =
      (.ok (crc32 c.content), ⟨[], (encryptSome crates c.encoded d).2, c.content⟩) := by
    rw [recordBlock, hdata, BlockField.toNat_compressedSize]
    simp only [BlockField.block, Chunk.block, hsize]
    rw [hc _ d (by rw [hback]), hback]
  refine ⟨?_, ?_, ?_, ?_⟩
  · rw [hrecord]
    rfl
  · rw [hrecord]
  · rw [hrecord]
  · simp [BlockField.block, Chunk.block, hsize]

theorem blocksDecode_sealChunks {cs : List Chunk}
    (hcs : ∀ c ∈ cs, Encodes crates c.methodByte c.encoded c.content) {d : Option Decryptor} {p : Nat}
    (hdata : (blocksAt p (sealChunks crates cs d)).map (blockData archive) =
      (sealChunks crates cs d).map BlockField.data) :
    BlocksDecode crates archive (blocksAt p (sealChunks crates cs d)) d (cs.map Chunk.content) := by
  induction cs generalizing d p with
  | nil => exact .nil
  | cons c cs ih =>
      rw [List.forall_mem_cons] at hcs
      simp only [sealChunks, blocksAt, List.map_cons, List.cons.injEq] at hdata
      exact .cons (Chunk.decodes hcs.1 hdata.1) (ih hcs.2 hdata.2)

/-! ## entries -/

/-- A file whose blocks are encoded one by one: what each holds is its content,
and the contents make up the file. -/
structure PackedFile.Plain (crates : Crates) (f : PackedFile) : Prop where
  encodes : ∀ c ∈ f.chunks, Encodes crates c.methodByte c.encoded c.content
  content : f.content = f.chunks.flatMap Chunk.content

/-- A plain file can be read, and has the content that was packed. -/
theorem ReadBack.readable (h : ReadBack crates archive pwd entry f) (hplain : f.Plain crates)
    (hunlocks : Unlocks password pwd f) (hdir : entry.isDirectory = false) :
    Readable crates archive password entry f.content := by
  obtain ⟨p, hblocks⟩ := h.blocks
  by_cases hchunks : f.chunks = []
  · have hnil : entry.blocks = [] := by rw [hblocks, PackedFile.blocks, hchunks]; rfl
    have hcontent : f.content = [] := by rw [hplain.content, hchunks]; rfl
    rw [hcontent]
    refine .empty hdir hnil ?_
    rw [h.size, hcontent]
    rfl
  · have hne : entry.blocks ≠ [] := by
      rw [hblocks, PackedFile.blocks]
      cases hcs : f.chunks with
      | nil => exact absurd hcs hchunks
      | cons c cs => simp [sealChunks, blocksAt]
    rw [hplain.content]
    refine .file hdir hne ⟨_, h.setup hunlocks, h.authenticates, ?_⟩
    have hdata := h.data
    rw [hblocks] at hdata ⊢
    rw [Option.map_map]
    exact blocksDecode_sealChunks hplain.encodes hdata

/-- A plain file extracts, to the content that was packed. -/
theorem ReadBack.outcome (hos : os.Succeeds) (h : ReadBack crates archive pwd entry f)
    (hname : SafeName f.name) (hplain : f.isDirectory = false → f.Plain crates)
    (hunlocks : Unlocks password pwd f) :
    entryOutcome crates os archive dest password entry = .ok () ∧
      (entry.isDirectory = false →
        entryContent crates os archive dest password entry = f.content) := by
  rw [← h.name] at hname
  cases hdir : entry.isDirectory with
  | true => exact ⟨(entryOutcome_of_readable hos hname (.directory hdir)).1, by simp⟩
  | false =>
      have hrun : entryOutcome crates os archive dest password entry = .ok () ∧ _ :=
        entryOutcome_of_readable hos hname
          (h.readable (hplain (h.directory ▸ hdir)) hunlocks hdir)
      exact ⟨hrun.1, fun _ => hrun.2⟩

theorem contents_eq {entries : List EggFileEntry} {fs : List PackedFile} (hos : os.Succeeds)
    (h : List.Forall₂ (ReadBack crates archive pwd) entries fs)
    (hfiles : ∀ entry ∈ entries, entry.isDirectory = false)
    (hok : ∀ f ∈ fs, SafeName f.name ∧ (f.isDirectory = false → f.Plain crates) ∧
      Unlocks password pwd f) :
    entries.map (entryContent crates os archive dest password) = fs.map PackedFile.content := by
  induction h with
  | nil => rfl
  | cons h _ ih =>
      rw [List.forall_mem_cons] at hfiles hok
      obtain ⟨⟨hname, hplain, hunlocks⟩, hok⟩ := hok
      rw [List.map_cons, List.map_cons, ih hfiles.2 hok,
        (h.outcome hos hname hplain hunlocks).2 hfiles.1]

/-! ## archives -/

/-- Extracting what a filter selects of plain files restores them. -/
theorem restores_plain {fs : List PackedFile} (hos : os.Succeeds)
    (hback : List.Forall₂ (ReadBack crates archive pwd) archive.entries fs)
    (hsolid : archive.isSolid = false)
    (hplain : ∀ f ∈ fs, f.isDirectory = false → f.Plain crates)
    (hnames : ∀ f ∈ fs, SafeName f.name) (hunlocks : ∀ f ∈ fs, Unlocks password pwd f)
    (hmatched : Matched filter fs) (dest : Path) (pipeMode : Bool) (w : World) :
    ∃ v, (extraction crates os archive dest password pipeMode filter).run w = (.ok (), v) ∧
      Restored dest pipeMode filter fs w v := by
  have hok : ∀ f ∈ fs, SafeName f.name ∧ (f.isDirectory = false → f.Plain crates) ∧
      Unlocks password pwd f := fun f hf => ⟨hnames f hf, hplain f hf, hunlocks f hf⟩
  have houtcomes : entriesOutcome crates os archive dest password
      (selected filter archive.entries) = .ok () := by
    refine entriesOutcome_ok.mpr fun entry hentry => ?_
    obtain ⟨f, hf, hread⟩ := (exists_of_forall₂ hback).1 entry (List.mem_filter.mp hentry).1
    exact (hread.outcome hos (hnames f hf) (hplain f hf) (hunlocks f hf)).1
  have hcontents : (regular archive.entries).map (entryContent crates os archive dest password) =
      (plain fs).map PackedFile.content := by
    refine contents_eq hos (forall₂_plain hback) (fun entry hentry => ?_) fun f hf => ?_
    · simpa using (List.mem_filter.mp hentry).2
    · exact hok f (List.mem_filter.mp hf).1
  obtain ⟨v, hv⟩ : ∃ v, v = ((Run.forEach (extractEntry crates os archive dest password pipeMode)
    (selected filter archive.entries)).run w).2 := ⟨_, rfl⟩
  have hd := entries_delivered hos pipeMode filter archive.entries w houtcomes
  have hrun : (Run.forEach (extractEntry crates os archive dest password pipeMode)
      (selected filter archive.entries)).run w = (.ok (), v) :=
    Prod.ext ((entries_determined hos pipeMode _ w).1.trans houtcomes) hv.symm
  rw [hcontents, ← hv] at hd
  refine ⟨v, ?_, .of_delivered hback hd⟩
  rw [extraction_entries _ _ _ _ _ _ _ hsolid, Run.bind_of_ok hrun]
  exact checkMatched_run hback hmatched v

/-- **Round trip**: the bytes of a packed archive that is not solid open, and
extracting what a filter selects restores exactly those files, where their names may be
joined, those of the filter match and the calls to the system succeed. -/
theorem PackedArchive.extracts (hos : os.Succeeds) (crates : Crates) (pages : CodePages)
    (pwd : String) (a : PackedArchive) (hsolid : a.fields.any PrefixField.isSolid = false)
    (hplain : ∀ f ∈ a.files, f.isDirectory = false → f.Plain crates)
    (hnames : ∀ f ∈ a.files, SafeName f.name) (hunlocks : ∀ f ∈ a.files, Unlocks password pwd f)
    (hmatched : Matched filter a.files) (dest : Path) (pipeMode : Bool) (w : World) :
    ∃ archive c v, (EggArchive.open' pages).run ⟨a.bytes crates pwd, 0⟩ = (.ok archive, c) ∧
      (extraction crates os archive dest password pipeMode filter).run w = (.ok (), v) ∧
      Restored dest pipeMode filter a.files w v := by
  obtain ⟨archive, c, hopen, hnot, hback⟩ := a.readBack crates pages pwd
  obtain ⟨v, hrun, hrestored⟩ := restores_plain hos hback (hnot.trans hsolid) hplain hnames hunlocks
    hmatched dest pipeMode w
  exact ⟨archive, c, v, hopen, hrun, hrestored⟩

theorem plainName_a : PlainName "a" := by simp [PlainName, isControl]

/-- A file `"a"` of two chunks, under ZipCrypto. -/
def lockedFile : PackedFile where
  desc := {
    fileId := 0
    size := 0
    name := "a"
    plain := plainName_a
    nameFlags := 1
    unflagged := by decide
    nameFits := by decide
    windows := none
    posix := none
    comments := []
    subs := [.filename ⟨1, 0, 0, utf8Bytes "a", by decide⟩]
    encrypt := none
    blocks := [] }
  ordered := .refl _
  content := [0x61, 0x62, 0x63]
  chunks := [.stored [0x61] (by decide), .stored [0x62, 0x63] (by decide)]
  lock := some (.zipCrypto (Vector.replicate 11 7) 0x352441C2)
  fits := by decide

theorem lockedFile_plain (crates : Crates) : lockedFile.Plain crates where
  encodes := by
    simp only [lockedFile, List.forall_mem_cons]
    exact ⟨encodes_store _, encodes_store _, by simp⟩
  content := rfl

/-- An archive of that file and a comment. -/
def lockedArchive : PackedArchive where
  version := 0x0100
  headerId := 1
  reserved := 0
  fields := []
  records := [(false, .comment ⟨0, [0x6c, 0x6f], by decide⟩), (true, .file lockedFile)]

theorem lockedArchive_extracts :
    ∃ archive c v, (EggArchive.open' CodePages.blank).run
        ⟨lockedArchive.bytes .storeOnly "pw", 0⟩ = (.ok archive, c) ∧
      (extraction .storeOnly .obliging archive [.normal "out"] (some "pw") false none).run [] =
        (.ok (), v) ∧
      Restored [.normal "out"] false none [lockedFile] [] v :=
  lockedArchive.extracts Os.obliging_succeeds .storeOnly _ "pw" rfl
    (fun f hf _ => by
      obtain rfl := List.mem_singleton.mp hf
      exact lockedFile_plain _)
    (by decide) (fun _ _ => .inl rfl) (by simp [Matched]) _ false []

end Unegg
