import Unegg.Decompress.Checksum
import Unegg.Extract
import Unegg.SolidSink.Tilings

/-!
# Unegg.Extract.Solid

What a solid extraction that succeeds has done (`extractAllSolid_sound`).

The stream a solid archive stands for is put together entry by entry, each
with a decryptor of its own (`solidStream`); `readBlocks` reads it block by
block (`readBlocks_ok`).  The codec gives up on the first failed write, so a
run into the sink that succeeds has written what the codec emits on that
stream, and the finished sink has cut it into the declared files and blocks.
-/

namespace Unegg

open Prog Crc32 Tiling

variable {crates : Crates} {os : Os} {archive : EggArchive} {entries : List EggFileEntry}
  {destDir : Path} {password : Option String} {pipeMode : Bool} {filter : Option (List String)}
  {w w' : World}

/-! ## the scan -/

/-- The entries that are files. -/
def regular (entries : List EggFileEntry) : List EggFileEntry :=
  entries.filter fun e => !e.isDirectory

theorem regular_cons_directory {entry : EggFileEntry} (h : entry.isDirectory) :
    regular (entry :: entries) = regular entries := List.filter_cons_of_neg (by simp [h])

theorem regular_cons_file {entry : EggFileEntry} (h : ¬ entry.isDirectory) :
    regular (entry :: entries) = entry :: regular entries := List.filter_cons_of_pos (by simp [h])

/-- The same of numbered entries. -/
def regularIdx (es : List (EggFileEntry × Nat)) : List (EggFileEntry × Nat) :=
  es.filter fun p => !p.1.isDirectory

/-- The files with their places are the files. -/
theorem map_regularIdx (entries : List EggFileEntry) :
    (regularIdx entries.zipIdx).map Prod.fst = regular entries := by
  rw [regularIdx, regular, ← List.zipIdx_map_fst 0 entries, List.filter_map]
  simp [Function.comp_def]

/-- The spans of numbered files. -/
def Spans.of (es : List (EggFileEntry × Nat)) : Spans where
  fileSpans := es.map fun p => (p.2, p.1.uncompressedSize.toNat)
  crcSpans := es.flatMap fun p =>
    p.1.blocks.map fun block => (block.uncompressedSize.toNat, block.crc32)
  blockReads := es.flatMap fun p =>
    p.1.blocks.map fun block => ⟨p.2, block.compressedSize, block.dataPos⟩

def Spans.append (s t : Spans) : Spans where
  fileSpans := s.fileSpans ++ t.fileSpans
  crcSpans := s.crcSpans ++ t.crcSpans
  blockReads := s.blockReads ++ t.blockReads

/-- A directory adds no spans, and a file whose name may be joined adds its own. -/
theorem scanEntry_ok {entry : EggFileEntry} {fi : Nat} {spans spans' : Spans}
    (h : (scanEntry os destDir pipeMode filter entry fi spans).run w = (.ok spans', w')) :
    (entry.isDirectory = true ∧ spans' = spans) ∨
      (entry.isDirectory = false ∧ SafeName entry.fileName ∧ spans' = spans.push entry fi) := by
  rw [scanEntry] at h
  split at h
  · next hdir =>
      rw [Run.bind_ok] at h
      obtain ⟨_, w₁, -, h⟩ := h
      simp only [Run.pure_run, Prod.mk.injEq, Outcome.ok.injEq] at h
      exact .inl ⟨hdir, h.1.symm⟩
  · next hdir =>
      rw [Run.bind_ok] at h
      obtain ⟨path, w₁, hjoin, h⟩ := h
      rw [Run.ofExcept_ok] at hjoin
      simp only [Run.pure_run, Prod.mk.injEq, Outcome.ok.injEq] at h
      exact .inr ⟨by simpa using hdir, (safeJoin_ok.mp hjoin.1).1, h.1.symm⟩

/-- The scan finds the spans of the files, all of which have safe names. -/
theorem scanEntries_ok {es : List (EggFileEntry × Nat)} {spans spans' : Spans}
    (h : (scanEntries os destDir pipeMode filter es spans).run w = (.ok spans', w')) :
    spans' = spans.append (.of (regularIdx es)) ∧
      ∀ p ∈ regularIdx es, SafeName p.1.fileName := by
  induction es generalizing spans w with
  | nil =>
      simp only [scanEntries, Run.pure_run, Prod.mk.injEq, Outcome.ok.injEq] at h
      simp [← h.1, Spans.append, Spans.of, regularIdx]
  | cons p es ih =>
      obtain ⟨entry, fi⟩ := p
      rw [scanEntries, Run.bind_ok] at h
      obtain ⟨spans₁, w₁, hfirst, h⟩ := h
      obtain ⟨hspans, hsafe⟩ := ih h
      rcases scanEntry_ok hfirst with ⟨hdir, rfl⟩ | ⟨hdir, hname, rfl⟩
      · have hskip : regularIdx ((entry, fi) :: es) = regularIdx es := by simp [regularIdx, hdir]
        rw [hskip]
        exact ⟨hspans, hsafe⟩
      · have hkeep : regularIdx ((entry, fi) :: es) = (entry, fi) :: regularIdx es := by
          simp [regularIdx, hdir]
        rw [hkeep]
        refine ⟨?_, List.forall_mem_cons.mpr ⟨hname, hsafe⟩⟩
        simp [hspans, Spans.append, Spans.push, Spans.of]

/-! ## quiet steps -/

theorem quiet_createDirAll (p : Path) :
    Run.Steps (Adds fun e => e.isQuiet) (createDirAll os p) :=
  .mapErr (Adds.mkdirAll fun _ => rfl)

/-- Making the directory of an entry writes nothing. -/
theorem quiet_makeDirectory (entry : EggFileEntry) :
    Run.Steps (Adds fun e => e.isQuiet) (makeDirectory os destDir pipeMode filter entry) := by
  rw [makeDirectory]
  split
  · exact .bind (.ofExcept _) fun dirPath => quiet_createDirAll dirPath
  · exact .pure ()

/-- The scan writes nothing. -/
theorem quiet_scanEntries (es : List (EggFileEntry × Nat)) (spans : Spans) :
    Run.Steps (Adds fun e => e.isQuiet) (scanEntries os destDir pipeMode filter es spans) := by
  induction es generalizing spans with
  | nil => exact .pure _
  | cons p es ih =>
      refine .bind ?_ fun spans => ih spans
      rw [scanEntry]
      split
      · exact .bind (quiet_makeDirectory _) fun _ => .pure _
      · exact .bind (.ofExcept _) fun _ => .pure _

theorem quiet_setFileTime (path : Path) (filetime : UInt64) :
    Run.Steps (Adds fun e => e.isQuiet) (setFileTime path filetime) := by
  rw [setFileTime]
  split
  · exact .pure ()
  · exact Adds.note rfl

/-- Setting the times writes nothing. -/
theorem quiet_applyTimes :
    Run.Steps (Adds fun e => e.isQuiet) (applyTimes entries destDir pipeMode filter) := by
  rw [applyTimes]
  split
  · exact .pure ()
  · refine .forEach fun entry _ => ?_
    rw [applyTime]
    split
    · exact .pure ()
    · split
      · exact .pure ()
      · exact .bind (.ofExcept _) fun path => quiet_setFileTime path _

/-! ## the compressed stream -/

/-- The stored data of a block. -/
def blockData (archive : EggArchive) (block : EggBlock) : List UInt8 :=
  (archive.reader.data.drop block.dataPos).take block.compressedSize.toNat

/-- The decryptor an entry starts with. -/
def freshDecryptor (crates : Crates) (password : Option String) (entry : EggFileEntry) :
    Option Decryptor :=
  match setupDecryptor crates entry password with
  | .ok crypto => crypto.map FileCrypto.decryptor
  | .error _ => none

/-- The data of an entry's blocks, decrypted as one. -/
def entryStream (crates : Crates) (archive : EggArchive) (password : Option String)
    (entry : EggFileEntry) : List UInt8 :=
  (decryptSome crates (entry.blocks.flatMap (blockData archive))
    (freshDecryptor crates password entry)).1

/-- The compressed stream of a solid archive. -/
def solidStream (crates : Crates) (archive : EggArchive) (password : Option String)
    (entries : List EggFileEntry) : List UInt8 :=
  (regular entries).flatMap (entryStream crates archive password)

theorem sameData_hmacLoop (n : Nat) (p : Nat × List UInt8) :
    Run.Steps SameData (Run.loop hmacStep n p) := by
  refine .loop (fun q => ?_) n p
  rw [hmacStep]
  exact .ite (.pure _) (.bind (sameData_readExact _) fun _ => .pure _)

/-- Gathering what is authenticated only reads. -/
theorem sameData_hmacMessage (blocks : List EggBlock) (msg : List UInt8) :
    Run.Steps SameData (hmacMessage blocks msg) := by
  induction blocks generalizing msg with
  | nil => exact .pure _
  | cons block blocks ih =>
      exact .bind (sameData_seekStart _) fun _ => .bind (sameData_hmacLoop _ _) fun msg => ih msg

/-- Authentication only reads. -/
theorem sameData_authenticate (entry : EggFileEntry) (crypto : Option FileCrypto) :
    Run.Steps SameData (authenticate crates entry crypto) := by
  rw [authenticate]
  split
  · refine .bind (sameData_hmacMessage _ _) fun msg => ?_
    simp only
    split
    · exact .throw _
    · exact .pure _
  · exact .pure _

/-- The reads of the blocks of one file. -/
abbrev blockReadOf (fi : Nat) (block : EggBlock) : BlockRead :=
  ⟨fi, block.compressedSize, block.dataPos⟩

variable {c c' : Cursor} {fi : Nat} {crypto : Option FileCrypto} {acc bytes : List UInt8}
  {rest : List BlockRead}

/-- A block of the current file is decrypted where the last one ended. -/
theorem readBlock_same {block : EggBlock} {g : Gathered} (hc : c.data = archive.reader.data)
    (h : (readBlock crates entries password ⟨some fi, crypto, acc⟩ (blockReadOf fi block)).run c =
      (.ok g, c')) :
    ∃ crypto', g = ⟨some fi, crypto', acc ++ (decryptSome crates (blockData archive block)
        (crypto.map FileCrypto.decryptor)).1⟩ ∧
      crypto'.map FileCrypto.decryptor =
        (decryptSome crates (blockData archive block) (crypto.map FileCrypto.decryptor)).2 ∧
      c'.data = archive.reader.data := by
  have hseek : (seekStart block.dataPos).run c = (.ok (), { c with pos := block.dataPos }) := rfl
  have hread : (readUpTo block.compressedSize.toNat).run { c with pos := block.dataPos } =
      (.ok (blockData archive block),
        ({ c with pos := block.dataPos } : Cursor).advance (blockData archive block).length) := by
    simp only [readUpTo, Cursor.rest, hc, blockData]
  rw [readBlock, if_neg (not_not.mpr rfl), pure_bind, Run.bind_of_ok hseek] at h
  simp only at h
  rw [Run.bind_of_ok hread] at h
  by_cases hlen : (blockData archive block).length = block.compressedSize.toNat
  · rw [if_neg (not_not.mpr hlen)] at h
    cases crypto with
    | none =>
        simp only [Run.pure_run, Prod.mk.injEq, Outcome.ok.injEq] at h
        exact ⟨none, h.1.symm, rfl, h.2 ▸ hc⟩
    | some fc =>
        simp only [Run.pure_run, Prod.mk.injEq, Outcome.ok.injEq] at h
        exact ⟨_, h.1.symm, rfl, h.2 ▸ hc⟩
  · rw [if_pos hlen] at h
    simp at h

/-- The blocks of the current file are decrypted as one. -/
theorem readBlocks_same {blocks : List EggBlock} (hc : c.data = archive.reader.data)
    (h : (readBlocks crates entries password (blocks.map (blockReadOf fi) ++ rest)
      ⟨some fi, crypto, acc⟩).run c = (.ok bytes, c')) :
    ∃ crypto' c₁, c₁.data = archive.reader.data ∧
      (readBlocks crates entries password rest ⟨some fi, crypto', acc ++ (decryptSome crates
        (blocks.flatMap (blockData archive)) (crypto.map FileCrypto.decryptor)).1⟩).run c₁ =
        (.ok bytes, c') := by
  induction blocks generalizing c crypto acc with
  | nil =>
      refine ⟨crypto, c, hc, ?_⟩
      cases crypto with
      | none => simpa [decryptSome] using h
      | some fc =>
          have hnil : (fc.decryptor.decrypt crates []).1 = [] := by
            cases hfc : fc.decryptor <;> rfl
          simpa [decryptSome, hnil] using h
  | cons block blocks ih =>
      rw [List.map_cons, List.cons_append, readBlocks, Run.bind_ok] at h
      obtain ⟨g, c₁, hfirst, h⟩ := h
      obtain ⟨crypto₁, rfl, hcrypto, hc₁⟩ := readBlock_same hc hfirst
      obtain ⟨crypto', c₂, hc₂, h⟩ := ih hc₁ h
      refine ⟨crypto', c₂, hc₂, ?_⟩
      rwa [List.flatMap_cons, decryptSome_append, ← hcrypto, ← List.append_assoc]

/-- The first block of a file sets up the file's own decryptor. -/
theorem readBlock_switch {entry : EggFileEntry} {block : EggBlock} {g g' : Gathered}
    (hentry : entries[fi]? = some entry) (hfi : g.currentFileIdx ≠ some fi)
    (h : (readBlock crates entries password g (blockReadOf fi block)).run c = (.ok g', c')) :
    ∃ crypto c₁, setupDecryptor crates entry password = .ok crypto ∧
      (authenticate crates entry crypto).run c = (.ok (), c₁) ∧
      (readBlock crates entries password ⟨some fi, crypto, g.allCompressed⟩
        (blockReadOf fi block)).run c₁ = (.ok g', c') := by
  rw [readBlock, if_pos (by exact Ne.symm hfi), Run.bind_ok] at h
  obtain ⟨crypto, c₁, hswitch, h⟩ := h
  simp only [switchFile, hentry] at hswitch
  rw [Run.bind_ok] at hswitch
  obtain ⟨crypto₀, c₀, hsetup, hswitch⟩ := hswitch
  rw [Run.ofExcept_ok] at hsetup
  obtain ⟨hsetup, rfl⟩ := hsetup
  rw [Run.bind_ok] at hswitch
  obtain ⟨_, c₂, hauth, hswitch⟩ := hswitch
  simp only [Run.pure_run, Prod.mk.injEq, Outcome.ok.injEq] at hswitch
  obtain ⟨rfl, rfl⟩ := hswitch
  exact ⟨crypto₀, c₂, hsetup, hauth, by simpa [readBlock] using h⟩

/-- The decryptor of an entry could be set up, and the entry was authenticated. -/
def Authenticated (crates : Crates) (archive : EggArchive) (password : Option String)
    (entry : EggFileEntry) : Prop :=
  ∃ crypto c c', c.data = archive.reader.data ∧ setupDecryptor crates entry password = .ok crypto ∧
    (authenticate crates entry crypto).run c = (.ok (), c')

/-- The blocks of a file that is not the current one. -/
theorem readBlocks_entry {entry : EggFileEntry} {g : Gathered} (hc : c.data = archive.reader.data)
    (hentry : entries[fi]? = some entry) (hfi : g.currentFileIdx ≠ some fi)
    (h : (readBlocks crates entries password (entry.blocks.map (blockReadOf fi) ++ rest) g).run c =
      (.ok bytes, c')) :
    ∃ g' c₁, c₁.data = archive.reader.data ∧
      (g'.currentFileIdx = g.currentFileIdx ∨ g'.currentFileIdx = some fi) ∧
      g'.allCompressed = g.allCompressed ++ entryStream crates archive password entry ∧
      (entry.blocks ≠ [] → Authenticated crates archive password entry) ∧
      (readBlocks crates entries password rest g').run c₁ = (.ok bytes, c') := by
  cases hblocks : entry.blocks with
  | nil =>
      rw [hblocks] at h
      refine ⟨g, c, hc, .inl rfl, ?_, by simp, h⟩
      rw [entryStream, hblocks]
      cases hfresh : freshDecryptor crates password entry with
      | none => simp [decryptSome]
      | some d =>
          have hnil : (d.decrypt crates []).1 = [] := by cases d <;> rfl
          simp [decryptSome, hnil]
  | cons block blocks =>
      rw [hblocks, List.map_cons, List.cons_append, readBlocks, Run.bind_ok] at h
      obtain ⟨g₁, c₁, hfirst, h⟩ := h
      obtain ⟨crypto, c₀, hsetup, hauth, hsame⟩ := readBlock_switch hentry hfi hfirst
      have hdata : c₀.data = c.data := (sameData_authenticate entry crypto).of_run hauth
      have hall : (readBlocks crates entries password ((block :: blocks).map (blockReadOf fi) ++ rest)
          ⟨some fi, crypto, g.allCompressed⟩).run c₀ = (.ok bytes, c') := by
        rw [List.map_cons, List.cons_append, readBlocks, Run.bind_of_ok hsame, h]
      obtain ⟨crypto', c₂, hc₂, hrest⟩ := readBlocks_same (hdata.trans hc) hall
      refine ⟨_, c₂, hc₂, .inr rfl, ?_, fun _ => ⟨crypto, c, c₀, hc, hsetup, hauth⟩, hrest⟩
      rw [entryStream, freshDecryptor, hsetup, hblocks]

/-- **What is read is the stream of the entries**, each with its own decryptor. -/
theorem readBlocks_ok {es : List (EggFileEntry × Nat)} {g : Gathered}
    (hc : c.data = archive.reader.data) (hes : ∀ p ∈ es, entries[p.2]? = some p.1)
    (hnodup : (es.map Prod.snd).Nodup) (hfi : ∀ p ∈ es, g.currentFileIdx ≠ some p.2)
    (h : (readBlocks crates entries password (Spans.of es).blockReads g).run c = (.ok bytes, c')) :
    (bytes = g.allCompressed ++ es.flatMap fun p => entryStream crates archive password p.1) ∧
      ∀ p ∈ es, p.1.blocks ≠ [] → Authenticated crates archive password p.1 := by
  induction es generalizing c g with
  | nil =>
      simp only [Spans.of, List.flatMap_nil, readBlocks, Run.pure_run, Prod.mk.injEq,
        Outcome.ok.injEq] at h
      exact ⟨by rw [← h.1, List.flatMap_nil, List.append_nil], by simp⟩
  | cons p es ih =>
      rw [List.forall_mem_cons] at hes hfi
      rw [List.map_cons, List.nodup_cons] at hnodup
      obtain ⟨g', c₁, hc₁, hcur, hacc, hauth, hrest⟩ := readBlocks_entry hc hes.1 hfi.1 h
      have hfi' : ∀ q ∈ es, g'.currentFileIdx ≠ some q.2 := by
        intro q hq
        rcases hcur with hcur | hcur
        · rw [hcur]
          exact hfi.2 q hq
        · rw [hcur, Ne, Option.some.injEq]
          exact fun heq => hnodup.1 (heq ▸ List.mem_map_of_mem hq)
      obtain ⟨hbytes, hauths⟩ := ih hc₁ hes.2 hnodup.2 hfi' hrest
      refine ⟨?_, List.forall_mem_cons.mpr ⟨hauth, hauths⟩⟩
      rw [hbytes, hacc, List.flatMap_cons, List.append_assoc]

/-! ## the stream through the sink -/

/-- The bytes a codec emits on a stream. -/
def emitted (decode : Decode Unit) (stream : List UInt8) : List UInt8 :=
  ((decode.run Prod.mk ByteSink.recorder).run { rest := stream, crypto := (), out := [] }).2.out

/-- A stream that went through the sink is what the codec emits, cut into the
declared files and blocks. -/
theorem decompressInto_ok {cfg : SinkConfig} {decode : Decode Unit} {stream : List UInt8}
    {p : SolidSink × World} (hdecode : decode.Streams)
    (h : (decompressInto os cfg decode stream).run (.new, w) = (.ok (), p)) :
    ∃ fs bs : List (List UInt8), emitted decode stream = fs.flatten ∧
      emitted decode stream = bs.flatten ∧
      fs.map List.length = cfg.fileSpans.map Prod.snd ∧
      bs.map (fun b => (b.length, crc32 b)) = cfg.crcSpans ∧ Wrote w p.2 (cfg.outputsOf fs) := by
  rw [decompressInto, Run.bind_ok] at h
  obtain ⟨_, p₁, hrun, hfinish⟩ := h
  rcases hio : (decode.run Prod.mk (SolidSink.sink os cfg)).run
    { rest := stream, crypto := (), out := (.new, w) } with ⟨o, io⟩
  simp only [hio, Prod.mk.injEq] at hrun
  obtain ⟨rfl, rfl⟩ := hrun
  obtain ⟨d, hrec, hold⟩ := hdecode.run_sim SolidSink.sink_simulates hio (SolidSink.holds_new w)
  have hd : emitted decode stream = d := by
    simp only [emitted]
    rw [hrec]
  obtain ⟨fs, bs, hfs, hbs, hfiles, hblocks, -, hwrote⟩ := SolidSink.finish_ok hold hfinish
  exact ⟨fs, bs, hd.trans hfs, hd.trans hbs, hfiles, hblocks, hwrote⟩

/-- The sink of a stream starts new, and its error is handed on as a value. -/
theorem withSink_ok {m : Run (SolidSink × World) EggError Unit} {r : Except EggError Unit}
    {s : SolidSink} (h : (withSink m).run w = (.ok (r, s), w')) :
    (Run.attempt m : Run _ Empty _).run (.new, w) = (.ok r, (s, w')) := by
  simp only [withSink] at h
  split at h
  · next hm =>
      simp only [Prod.mk.injEq, Outcome.ok.injEq] at h
      obtain ⟨⟨rfl, rfl⟩, rfl⟩ := h
      exact hm
  · next e _ _ => exact e.elim
  · simp at h
  · simp at h

/-- The blocks of the files. -/
def solidBlocks (entries : List EggFileEntry) : List EggBlock :=
  (regular entries).flatMap EggFileEntry.blocks

/-- What the codec emits on the stream of a solid archive. -/
def solidOutput (crates : Crates) (archive : EggArchive) (password : Option String)
    (entries : List EggFileEntry) : List UInt8 :=
  let stream := solidStream crates archive password entries
  let total := ((solidBlocks entries).map fun block => block.uncompressedSize.toNat).sum % 2 ^ 64
  emitted (decompressSolid crates (solidMethod entries) stream.length total) stream

/-- The spans of an archive's files. -/
def Spans.ofEntries (entries : List EggFileEntry) : Spans := .of (regularIdx entries.zipIdx)

/-- The spans of the blocks are their sizes and checksums. -/
theorem crcSpans_ofEntries (entries : List EggFileEntry) : (Spans.ofEntries entries).crcSpans =
    (solidBlocks entries).map fun block => (block.uncompressedSize.toNat, block.crc32) := by
  rw [solidBlocks, ← map_regularIdx, List.flatMap_map, List.map_flatMap]
  rfl

/-- A scan that succeeds has found the spans of the entries. -/
theorem spans_ofEntries {spans : Spans}
    (h : (scanEntries os destDir pipeMode filter entries.zipIdx .empty).run w = (.ok spans, w')) :
    spans = .ofEntries entries := by
  rw [(scanEntries_ok h).1]
  rfl

/-- Where there are blocks there is something to read. -/
theorem blockReads_ne_nil (h : solidBlocks entries ≠ []) :
    (Spans.ofEntries entries).blockReads ≠ [] := by
  intro hnil
  refine h ?_
  rw [solidBlocks, ← map_regularIdx, List.flatMap_map]
  simpa [Spans.ofEntries, Spans.of] using hnil

/-- The spans of the files have their sizes. -/
theorem sizes_ofEntries (entries : List EggFileEntry) :
    (Spans.ofEntries entries).fileSpans.map Prod.snd =
      (regular entries).map fun entry => entry.uncompressedSize.toNat := by
  rw [← map_regularIdx, Spans.ofEntries, Spans.of, List.map_map, List.map_map]
  rfl

/-- The place of an entry leads back to it. -/
theorem getElem?_of_mem_zipIdx {p : EggFileEntry × Nat} (h : p ∈ entries.zipIdx) :
    entries[p.2]? = some p.1 := by
  obtain ⟨e, i⟩ := p
  exact List.mem_zipIdx_iff_getElem?.mp h

/-- The spans of the files lead back to them. -/
theorem entries_ofEntries (entries : List EggFileEntry) :
    ((Spans.ofEntries entries).fileSpans.map fun span => entries[span.1]?) =
      (regular entries).map some := by
  rw [← map_regularIdx, Spans.ofEntries, Spans.of, List.map_map, List.map_map]
  refine List.map_congr_left fun p hp => ?_
  exact getElem?_of_mem_zipIdx (List.mem_of_mem_filter hp)

/-- The outputs of the files, when their contents are `fs`. -/
def fileOutputs (destDir : Path) (pipeMode : Bool) (filter : Option (List String))
    (entries : List EggFileEntry) (fs : List (List UInt8)) : List (Target × List UInt8) :=
  ((regular entries).zip fs).filterMap fun (entry, f) =>
    (outputTarget destDir pipeMode filter entry).map (·, f)

/-- The stream of a solid archive, with every file authenticated. -/
theorem readStream_ok {stream : List UInt8}
    (h : (readBlocks crates entries password (Spans.ofEntries entries).blockReads .empty).run
      archive.reader = (.ok stream, c')) :
    stream = solidStream crates archive password entries ∧
      ∀ entry ∈ regular entries, entry.blocks ≠ [] →
        Authenticated crates archive password entry := by
  have hnodup : ((regularIdx entries.zipIdx).map Prod.snd).Nodup := by
    refine List.Nodup.sublist ((List.filter_sublist).map Prod.snd) ?_
    rw [List.zipIdx_map_snd]
    exact List.nodup_range'
  obtain ⟨hbytes, hauths⟩ := readBlocks_ok (g := .empty) rfl
    (fun p hp => getElem?_of_mem_zipIdx (List.mem_of_mem_filter hp)) hnodup
    (fun p _ => by simp [Gathered.empty]) h
  rw [solidStream, ← map_regularIdx, List.flatMap_map]
  refine ⟨by rw [hbytes]; rfl, fun entry hentry => ?_⟩
  obtain ⟨p, hp, rfl⟩ := List.mem_map.mp hentry
  exact hauths p hp

/-- A stream that is extracted has been cut into the files and into the blocks. -/
theorem extractStream_ok (hcrates : crates.StopsOnError)
    (h : (extractStream crates os archive entries destDir password pipeMode filter
      (.ofEntries entries)).run w = (.ok (), w')) :
    ∃ fs bs : List (List UInt8),
      solidOutput crates archive password entries = fs.flatten ∧
      solidOutput crates archive password entries = bs.flatten ∧
      fs.map List.length = ((regular entries).map fun entry => entry.uncompressedSize.toNat) ∧
      bs.map (fun b => (b.length, crc32 b)) =
        ((solidBlocks entries).map fun block => (block.uncompressedSize.toNat, block.crc32)) ∧
      Wrote w w' (fileOutputs destDir pipeMode filter entries fs) := by
  rw [extractStream, Run.bind_ok] at h
  obtain ⟨stream, w₁, hread, h⟩ := h
  simp only [onReader, Prod.mk.injEq] at hread
  obtain ⟨hread, rfl⟩ := hread
  obtain ⟨hstream, -⟩ := readStream_ok (Prod.ext hread rfl)
  subst hstream
  rw [Run.bind_ok] at h
  obtain ⟨⟨r, s⟩, w₂, hsink, h⟩ := h
  cases r with
  | error e =>
      simp only at h
      rw [Run.bind_ok] at h
      obtain ⟨_, _, _, h⟩ := h
      simp at h
  | ok u =>
      simp only [Run.pure_run, Prod.mk.injEq, true_and] at h
      subst h
      have hrun := Run.attempt_ok.mp (withSink_ok hsink)
      obtain ⟨fs, bs, hfs, hbs, hfiles, hblocks, hwrote⟩ :=
        decompressInto_ok (stops_decompressSolid hcrates _ _ _).streams hrun
      simp only [crcSpans_ofEntries, List.map_map] at hfs hbs hblocks
      refine ⟨fs, bs, hfs, hbs, ?_, hblocks, ?_⟩
      · rw [hfiles, sizes_ofEntries]
      · simpa [SinkConfig.outputsOf, entries_ofEntries, fileOutputs, List.zip_map_left,
          List.filterMap_map, Function.comp_def] using hwrote

/-- **Soundness of solid extraction.** -/
theorem extractAllSolid_sound (hcrates : crates.StopsOnError) (hblocks : solidBlocks entries ≠ [])
    (h : (extractAllSolid crates os archive entries destDir password pipeMode filter).run w =
      (.ok (), w')) :
    let out := solidOutput crates archive password entries
    let sizes := (regular entries).map fun entry => entry.uncompressedSize.toNat
    let blockSizes := (solidBlocks entries).map fun block => block.uncompressedSize.toNat
    out.length = sizes.sum ∧ out.length = blockSizes.sum ∧
      (blockSizes.splitLengths out).map crc32 = (solidBlocks entries).map EggBlock.crc32 ∧
      Wrote w w' (fileOutputs destDir pipeMode filter entries (sizes.splitLengths out)) := by
  rw [extractAllSolid, Run.bind_ok] at h
  obtain ⟨spans, w₁, hscan, h⟩ := h
  rw [Run.bind_ok] at h
  obtain ⟨_, w₂, hspans, htimes⟩ := h
  obtain rfl := spans_ofEntries hscan
  rw [extractSpans, if_pos (blockReads_ne_nil hblocks)] at hspans
  obtain ⟨fs, bs, hfs, hbs, hfiles, hsums, hwrote⟩ := extractStream_ok hcrates hspans
  have hlens : bs.map List.length =
      (solidBlocks entries).map fun block => block.uncompressedSize.toNat := by
    simpa [Function.comp_def] using congrArg (List.map Prod.fst) hsums
  have hcrcs : bs.map crc32 = (solidBlocks entries).map EggBlock.crc32 := by
    simpa [Function.comp_def] using congrArg (List.map Prod.snd) hsums
  have hquiet₁ := (quiet_scanEntries _ _).of_run hscan
  have hquiet₂ := quiet_applyTimes.of_run htimes
  refine ⟨?_, ?_, ?_, ?_⟩
  · rw [← hfiles, hfs, List.length_flatten]
  · rw [← hlens, hbs, List.length_flatten]
  · rw [← hlens, hbs, splitLengths_flatten, hcrcs]
  · rw [← hfiles, hfs, splitLengths_flatten]
    exact (hwrote.after hquiet₁).adds hquiet₂

/-- A solid archive with the files `"a"` and `"b"` of one byte each, in one
block that the first one owns. -/
def twoFilesOneBlock : EggArchive where
  reader := ⟨[0x61, 0x62], 0⟩
  entries := [
    ⟨"a", 0, 1, [⟨.store, 2, 2, 0x9E83486D, 0⟩], none, none, 0, none⟩,
    ⟨"b", 1, 1, [], none, none, 0, none⟩]
  isEncrypted := false
  isSolid := true
  headerId := 0
  splitInfo := none

/-- Two files of one byte each, in one block of two. -/
theorem twoFilesOneBlock_sound :
    ∃ w', (extractAllSolid .storeOnly .obliging twoFilesOneBlock twoFilesOneBlock.entries
        [.normal "out"] none false none).run [] = (.ok (), w') ∧
      Wrote [] w' [(.file [.normal "out", .normal "a"], [0x61]),
        (.file [.normal "out", .normal "b"], [0x62])] := by
  obtain ⟨w', hrun⟩ : ∃ w', (extractAllSolid .storeOnly .obliging twoFilesOneBlock
      twoFilesOneBlock.entries [.normal "out"] none false none).run [] = (.ok (), w') :=
    ⟨_, Prod.ext (by decide +kernel) rfl⟩
  refine ⟨w', hrun, ?_⟩
  have hsound := extractAllSolid_sound Crates.storeOnly_stops (by decide +kernel) hrun
  have houts : fileOutputs [.normal "out"] false none twoFilesOneBlock.entries
      (([1, 1] : List Nat).splitLengths (solidOutput .storeOnly twoFilesOneBlock none
        twoFilesOneBlock.entries)) = [(.file [.normal "out", .normal "a"], [0x61]),
        (.file [.normal "out", .normal "b"], [0x62])] := by
    decide +kernel
  rw [← houts]
  exact hsound.2.2.2

end Unegg
