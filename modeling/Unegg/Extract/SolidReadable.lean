import Unegg.Coder.Accepts
import Unegg.Extract.SolidDelivered

/-!
# Unegg.Extract.SolidReadable

What makes a solid archive extract, told without running the extraction: its
names may be joined, every file with blocks unlocks and is authentic, and the
stream of the blocks decodes to a content that the files and the blocks both
tile, the last block having bytes (`SolidReadable`).
-/

namespace Unegg

open Prog Crc32

variable {crates : Crates} {os : Os} {archive : EggArchive} {dest : Path}
  {password : Option String} {pipeMode : Bool} {filter : Option (List String)}
  {entries : List EggFileEntry} {entry : EggFileEntry} {w w' : World} {c : Cursor} {fi : Nat}

/-! ## reading the stream -/

/-- All of a block's data is there. -/
def Present (archive : EggArchive) (block : EggBlock) : Prop :=
  (blockData archive block).length = block.compressedSize.toNat

/-- A file unlocks and is authentic. -/
def Unlocked (crates : Crates) (archive : EggArchive) (password : Option String)
    (entry : EggFileEntry) : Prop :=
  ∃ crypto, setupDecryptor crates entry password = .ok crypto ∧
    ((authenticate crates entry crypto).run archive.reader).1 = .ok ()

section Reading

variable {crypto : Option FileCrypto} {acc : List UInt8} {rest : List BlockRead}

theorem readBlock_run {block : EggBlock} (hc : c.data = archive.reader.data)
    (hblock : Present archive block) :
    ∃ crypto' c', (readBlock crates entries password ⟨some fi, crypto, acc⟩
        (blockReadOf fi block)).run c = (.ok ⟨some fi, crypto', acc ++ (decryptSome crates
          (blockData archive block) (crypto.map FileCrypto.decryptor)).1⟩, c') ∧
      crypto'.map FileCrypto.decryptor =
        (decryptSome crates (blockData archive block) (crypto.map FileCrypto.decryptor)).2 ∧
      c'.data = archive.reader.data := by
  have hseek : (seekStart block.dataPos).run c = (.ok (), { c with pos := block.dataPos }) := rfl
  have hread : (readUpTo block.compressedSize.toNat).run { c with pos := block.dataPos } =
      (.ok (blockData archive block),
        ({ c with pos := block.dataPos } : Cursor).advance (blockData archive block).length) := by
    simp only [readUpTo, Cursor.rest, hc, blockData]
  have hlen : (blockData archive block).length = block.compressedSize.toNat := hblock
  rw [readBlock, if_neg (not_not.mpr rfl), pure_bind, Run.bind_of_ok hseek]
  simp only
  rw [Run.bind_of_ok hread, if_neg (not_not.mpr hlen)]
  cases crypto with
  | none => exact ⟨none, _, rfl, rfl, hc⟩
  | some fc => exact ⟨_, _, rfl, rfl, hc⟩

/-- The blocks of the current file. -/
theorem readBlocks_run {blocks : List EggBlock} (hc : c.data = archive.reader.data)
    (hblocks : ∀ block ∈ blocks, Present archive block) :
    ∃ crypto' c', c'.data = archive.reader.data ∧
      (readBlocks crates entries password (blocks.map (blockReadOf fi) ++ rest)
        ⟨some fi, crypto, acc⟩).run c =
      (readBlocks crates entries password rest ⟨some fi, crypto', acc ++ (decryptSome crates
        (blocks.flatMap (blockData archive)) (crypto.map FileCrypto.decryptor)).1⟩).run c' := by
  induction blocks generalizing c crypto acc with
  | nil =>
      refine ⟨crypto, c, hc, ?_⟩
      have hnil : (decryptSome crates [] (crypto.map FileCrypto.decryptor)).1 = [] :=
        List.length_eq_zero_iff.mp (length_decryptSome _ _)
      rw [List.flatMap_nil, hnil, List.append_nil]
      rfl
  | cons block blocks ih =>
      rw [List.forall_mem_cons] at hblocks
      obtain ⟨crypto₁, c₁, hfirst, hcrypto, hc₁⟩ := readBlock_run hc hblocks.1
      obtain ⟨crypto', c', hc', hrest⟩ := ih hc₁ hblocks.2
      refine ⟨crypto', c', hc', ?_⟩
      rw [List.map_cons, List.cons_append, readBlocks, Run.bind_of_ok hfirst, hrest,
        List.flatMap_cons, decryptSome_append, hcrypto, List.append_assoc]

/-- Authentication does not depend on where the reader stands. -/
theorem authenticate_outcome (hc : c.data = archive.reader.data) (crypto : Option FileCrypto)
    (hblocks : entry.blocks ≠ []) :
    ((authenticate crates entry crypto).run c).1 =
      ((authenticate crates entry crypto).run archive.reader).1 := by
  rw [authenticate]
  cases crypto.bind FileCrypto.auth with
  | none => rfl
  | some auth =>
      obtain ⟨block, blocks, hcons⟩ := List.exists_cons_of_ne_nil hblocks
      have hseek : (seekStart block.dataPos).run c =
          (seekStart block.dataPos).run archive.reader := by
        simp only [seekStart, hc]
      simp only [verifyHmac, hcons, hmacMessage, Run.bind_run, hseek]

/-- The blocks of a file that is not the current one. -/
theorem readBlocks_file {g : Gathered} (hc : c.data = archive.reader.data)
    (hentry : entries[fi]? = some entry) (hfi : g.currentFileIdx ≠ some fi)
    (hunlocked : entry.blocks ≠ [] → Unlocked crates archive password entry)
    (hblocks : ∀ block ∈ entry.blocks, Present archive block) :
    ∃ g' c', c'.data = archive.reader.data ∧
      (g'.currentFileIdx = g.currentFileIdx ∨ g'.currentFileIdx = some fi) ∧
      g'.allCompressed = g.allCompressed ++ entryStream crates archive password entry ∧
      (readBlocks crates entries password (entry.blocks.map (blockReadOf fi) ++ rest) g).run c =
        (readBlocks crates entries password rest g').run c' := by
  cases hcons : entry.blocks with
  | nil =>
      have hnil : entryStream crates archive password entry = [] := by
        rw [entryStream, hcons]
        exact List.length_eq_zero_iff.mp (length_decryptSome _ _)
      exact ⟨g, c, hc, .inl rfl, by rw [hnil, List.append_nil], rfl⟩
  | cons block blocks =>
      have hne : entry.blocks ≠ [] := by simp [hcons]
      obtain ⟨crypto, hsetup, hauth⟩ := hunlocked hne
      rw [← authenticate_outcome hc crypto hne] at hauth
      obtain ⟨c₁, hc₁⟩ : ∃ c₁, (authenticate crates entry crypto).run c = (.ok (), c₁) :=
        ⟨_, Prod.ext hauth rfl⟩
      have hdata : c₁.data = archive.reader.data :=
        ((sameData_authenticate entry crypto).of_run hc₁).trans hc
      have hswitch : (switchFile crates entries password fi).run c = (.ok crypto, c₁) := by
        simp only [switchFile, hentry]
        rw [Run.bind_of_ok (Run.ofExcept_ok.mpr ⟨hsetup, rfl⟩), Run.bind_of_ok hc₁]
        rfl
      have hfirst : (readBlock crates entries password g (blockReadOf fi block)).run c =
          (readBlock crates entries password ⟨some fi, crypto, g.allCompressed⟩
            (blockReadOf fi block)).run c₁ := by
        rw [readBlock, if_pos (Ne.symm hfi), Run.bind_of_ok hswitch, readBlock,
          if_neg (not_not.mpr rfl), pure_bind]
      have hall : (readBlocks crates entries password
          ((block :: blocks).map (blockReadOf fi) ++ rest) g).run c =
          (readBlocks crates entries password ((block :: blocks).map (blockReadOf fi) ++ rest)
            ⟨some fi, crypto, g.allCompressed⟩).run c₁ := by
        rw [List.map_cons, List.cons_append, readBlocks, readBlocks, Run.bind_run, Run.bind_run,
          hfirst]
      rw [hcons] at hblocks
      obtain ⟨crypto', c', hc', hrun⟩ := readBlocks_run hdata hblocks
      refine ⟨⟨some fi, crypto', g.allCompressed ++ entryStream crates archive password entry⟩, c',
        hc', .inr rfl, rfl, ?_⟩
      rw [hall, entryStream, freshDecryptor, hsetup, hcons]
      exact hrun

theorem readEntries_run {es : List (EggFileEntry × Nat)} {g : Gathered}
    (hc : c.data = archive.reader.data) (hes : ∀ p ∈ es, entries[p.2]? = some p.1)
    (hnodup : (es.map Prod.snd).Nodup) (hfi : ∀ p ∈ es, g.currentFileIdx ≠ some p.2)
    (hunlocked : ∀ p ∈ es, p.1.blocks ≠ [] → Unlocked crates archive password p.1)
    (hblocks : ∀ p ∈ es, ∀ block ∈ p.1.blocks, Present archive block) :
    ∃ c', (readBlocks crates entries password (Spans.of es).blockReads g).run c =
      (.ok (g.allCompressed ++ es.flatMap fun p => entryStream crates archive password p.1), c') := by
  induction es generalizing c g with
  | nil => exact ⟨c, by simp [Spans.of, readBlocks]⟩
  | cons p es ih =>
      rw [List.forall_mem_cons] at hes hfi hunlocked hblocks
      rw [List.map_cons, List.nodup_cons] at hnodup
      obtain ⟨g', c₁, hc₁, hcur, hacc, hrun⟩ :=
        readBlocks_file hc hes.1 hfi.1 hunlocked.1 hblocks.1
      have hfi' : ∀ q ∈ es, g'.currentFileIdx ≠ some q.2 := by
        intro q hq
        rcases hcur with h | h
        · rw [h]
          exact hfi.2 q hq
        · rw [h]
          intro heq
          exact hnodup.1 (List.mem_map.mpr ⟨q, hq, (Option.some.inj heq).symm⟩)
      obtain ⟨c', hrest⟩ := ih hc₁ hes.2 hnodup.2 hfi' hunlocked.2 hblocks.2
      refine ⟨c', ?_⟩
      rw [List.flatMap_cons, ← List.append_assoc, ← hacc, ← hrest, ← hrun]
      rfl

end Reading

/-- The stream of the files that unlock and are all there. -/
theorem readStream_run
    (hunlocked : ∀ entry ∈ regular entries, entry.blocks ≠ [] →
      Unlocked crates archive password entry)
    (hpresent : ∀ block ∈ solidBlocks entries, Present archive block) :
    ∃ c, (readBlocks crates entries password (Spans.ofEntries entries).blockReads .empty).run
      archive.reader = (.ok (solidStream crates archive password entries), c) := by
  have hmem : ∀ p ∈ regularIdx entries.zipIdx, p.1 ∈ regular entries := by
    intro p hp
    rw [← map_regularIdx]
    exact List.mem_map_of_mem hp
  have hnodup : ((regularIdx entries.zipIdx).map Prod.snd).Nodup := by
    refine List.Nodup.sublist ((List.filter_sublist).map Prod.snd) ?_
    rw [List.zipIdx_map_snd]
    exact List.nodup_range'
  obtain ⟨c, hrun⟩ := @readEntries_run crates archive password entries archive.reader
    (regularIdx entries.zipIdx) .empty rfl
    (fun p hp => getElem?_of_mem_zipIdx (List.mem_of_mem_filter hp)) hnodup
    (fun p _ => by simp [Gathered.empty]) (fun p hp => hunlocked p.1 (hmem p hp))
    (fun p hp block hblock => hpresent block (List.mem_flatMap.mpr ⟨p.1, hmem p hp, hblock⟩))
  refine ⟨c, ?_⟩
  rw [solidStream, ← map_regularIdx, List.flatMap_map]
  exact hrun

/-! ## the stream through the sink -/

/-- The stream of a solid archive on the recorder. -/
def recordStream (crates : Crates) (archive : EggArchive) (password : Option String)
    (entries : List EggFileEntry) : Outcome EggError Unit × Io Unit (List UInt8) :=
  let stream := solidStream crates archive password entries
  let total := ((solidBlocks entries).map fun block => block.uncompressedSize.toNat).sum % 2 ^ 64
  ((decompressSolid crates (solidMethod entries) stream.length total).run Prod.mk
    ByteSink.recorder).run ⟨stream, (), []⟩

/-- A solid archive that extracts, its files to `fs`. -/
structure SolidReadable (crates : Crates) (archive : EggArchive) (password : Option String)
    (entries : List EggFileEntry) (fs : List (List UInt8)) : Prop where
  unlocked : ∀ entry ∈ regular entries, entry.blocks ≠ [] → Unlocked crates archive password entry
  present : ∀ block ∈ solidBlocks entries, Present archive block
  decodes : (recordStream crates archive password entries).1 = .ok ()
  out : (recordStream crates archive password entries).2.out = fs.flatten
  sizes : fs.map List.length = (regular entries).map fun entry => entry.uncompressedSize.toNat
  blocks : ∃ bs : List (List UInt8), bs.flatten = fs.flatten ∧
    bs.map (fun b => (b.length, crc32 b)) =
      (solidBlocks entries).map fun block => (block.uncompressedSize.toNat, block.crc32)
  last : ∀ block ∈ (solidBlocks entries).getLast?, block.uncompressedSize ≠ 0

/-- The sink takes the stream that its spans declare. -/
theorem SolidSink.accepts_sink (hos : os.Succeeds) {cfg : SinkConfig} (hcfg : cfg.Checked)
    {files blocks : List (List UInt8)} (hdecl : Declared cfg files blocks) (w₀ : World) :
    (sink os cfg).Accepts (fun d p => Holds cfg w₀ d p) blocks.flatten where
  writeAll := by
    rintro d bs p hold hpre
    by_cases hne : bs = []
    · refine ⟨p, ?_, by rwa [hne, List.append_nil]⟩
      rw [hne, ByteSink.writeAll_nil]
    · obtain ⟨p', hwrite⟩ := write_total hos hcfg hdecl hold hpre
      exact ⟨p', ByteSink.writeAll_of_write hne hwrite, holds_write hold hwrite⟩
  flush := fun d p hold => ⟨p, flush_run hos p, hold⟩

theorem SinkConfig.targets_outputsOf {cfg : SinkConfig} {fs fs' : List (List UInt8)}
    (h : fs.length = cfg.fileSpans.length) (h' : fs'.length = cfg.fileSpans.length) :
    (cfg.outputsOf fs).map Prod.fst = (cfg.outputsOf fs').map Prod.fst := by
  have hfst : ∀ {gs : List (List UInt8)}, gs.length = cfg.fileSpans.length →
      (cfg.outputsOf gs).map Prod.fst =
        (cfg.fileSpans.map fun span => cfg.entries[span.1]?).filterMap fun entry =>
          entry.bind cfg.target := by
    intro gs hgs
    have hzip : ((cfg.fileSpans.map fun span => cfg.entries[span.1]?).zip gs).map Prod.fst =
        cfg.fileSpans.map fun span => cfg.entries[span.1]? :=
      List.map_fst_zip (by rw [List.length_map, hgs])
    rw [← hzip, List.filterMap_map, outputsOf, List.map_filterMap]
    refine List.filterMap_congr fun p _ => ?_
    rw [Option.map_map]
    simp [Function.comp_def]
  rw [hfst h, hfst h']

/-- The stream goes through the sink, into the files. -/
theorem decompressInto_run (hos : os.Succeeds) {cfg : SinkConfig} (hcfg : cfg.Checked)
    {files blocks : List (List UInt8)} (hdecl : SolidSink.Declared cfg files blocks)
    (hlast : ∀ span ∈ cfg.crcSpans.getLast?, span.1 ≠ 0) {decode : Decode Unit}
    {stream : List UInt8}
    (hdecode : ((decode.run Prod.mk ByteSink.recorder).run ⟨stream, (), []⟩).1 = .ok ())
    (hout : ((decode.run Prod.mk ByteSink.recorder).run ⟨stream, (), []⟩).2.out = blocks.flatten)
    (w : World) :
    ∃ p, (decompressInto os cfg decode stream).run (.new, w) = (.ok (), p) ∧
      Made w p.2 (cfg.outputsOf files) := by
  obtain ⟨p₁, hrun, hold⟩ := Coder.run_accepts (SolidSink.accepts_sink hos hcfg hdecl w) decode
    (Prod.ext hdecode rfl) (hout ▸ List.prefix_rfl) (SolidSink.holds_new w)
  rw [hout] at hold
  obtain ⟨p, hfinish⟩ := SolidSink.finish_total hos hcfg hdecl hold hlast
  obtain ⟨fs, -, hflat, -, hfs, -, -, hwrote⟩ := SolidSink.finish_ok hold hfinish
  have heq : fs = files :=
    List.eq_iff_flatten_eq.mpr ⟨by rw [← hflat, hdecl.flat], by rw [hfs, hdecl.fileSpans]⟩
  have hinto : (decompressInto os cfg decode stream).run (.new, w) = (.ok (), p) := by
    rw [decompressInto, Run.bind_run]
    simp only [hrun]
    exact hfinish
  refine ⟨p, hinto, heq ▸ hwrote, ?_⟩
  have halike := SolidSink.together_decompressInto hos hcfg hcfg rfl rfl decode stream w w
  rw [hinto] at halike
  obtain ⟨fs', hlen, hmade, -⟩ := halike.of_ok rfl
  have hfiles : files.length = cfg.fileSpans.length := by
    rw [← List.length_map List.length, hdecl.fileSpans, List.length_map]
  rw [hmade.directories, ← List.flatMap_map Prod.fst Target.above,
    ← List.flatMap_map Prod.fst Target.above, SinkConfig.targets_outputsOf hlen hfiles]

/-! ## the extraction -/

theorem totals_ofEntries (entries : List EggFileEntry) :
    ((Spans.ofEntries entries).crcSpans.map Prod.fst).sum =
      ((solidBlocks entries).map fun block => block.uncompressedSize.toNat).sum := by
  rw [crcSpans_ofEntries, List.map_map]
  rfl

/-- A readable stream is extracted. -/
theorem extractStream_run (hos : os.Succeeds) (hsafe : SafeFiles entries)
    {fs : List (List UInt8)} (h : SolidReadable crates archive password entries fs) (w : World) :
    ∃ v, (extractStream crates os archive entries dest password pipeMode filter
        (.ofEntries entries)).run w = (.ok (), v) ∧
      Made w v (fileOutputs dest pipeMode filter entries fs) := by
  obtain ⟨bs, hflat, hblocks⟩ := h.blocks
  have hdecl : SolidSink.Declared (filesConfig entries dest pipeMode filter) fs bs := {
    fileSpans := h.sizes.trans (sizes_ofEntries entries).symm
    crcSpans := hblocks.trans (crcSpans_ofEntries entries).symm
    flat := hflat.symm }
  have hlast : ∀ span ∈ (filesConfig entries dest pipeMode filter).crcSpans.getLast?,
      span.1 ≠ 0 := by
    intro span hspan
    have hspans : (filesConfig entries dest pipeMode filter).crcSpans =
        (solidBlocks entries).map _ := crcSpans_ofEntries entries
    rw [hspans, List.getLast?_map, Option.mem_def, Option.map_eq_some_iff] at hspan
    obtain ⟨block, hblock, rfl⟩ := hspan
    have hsize := h.last block hblock
    simpa [← UInt32.toNat_inj] using hsize
  obtain ⟨c, hread⟩ := readStream_run h.unlocked h.present
  have honreader : (onReader archive (readBlocks crates entries password
      (Spans.ofEntries entries).blockReads .empty)).run w =
      (.ok (solidStream crates archive password entries), w) := by
    simp only [onReader, hread]
  have hdecodes := h.decodes
  have hout := h.out
  rw [recordStream, ← totals_ofEntries] at hdecodes hout
  obtain ⟨p, hinto, hmade⟩ := decompressInto_run hos (filesConfig_checked hsafe) hdecl hlast
    hdecodes (hout.trans hflat.symm) w
  rw [outputsOf_filesConfig] at hmade
  refine ⟨p.2, ?_, hmade⟩
  have hstream : (extractStream crates os archive entries dest password pipeMode filter
      (.ofEntries entries)).run w = (decodeStream (solidMethod entries) crates os entries dest
        pipeMode filter (.ofEntries entries) (solidStream crates archive password entries)).run w :=
    Run.bind_of_ok honreader
  rw [hstream, decodeStream_run, hinto]
  rfl

/-- A readable solid archive extracts, to its contents. -/
theorem extractAllSolid_run (hos : os.Succeeds)
    (hscan : scanError dest pipeMode filter entries = none) (hblocks : solidBlocks entries ≠ [])
    {fs : List (List UInt8)} (h : SolidReadable crates archive password entries fs) (w : World) :
    ∃ v, (extractAllSolid crates os archive entries dest password pipeMode filter).run w =
        (.ok (), v) ∧ Delivered dest pipeMode filter entries fs w v := by
  have hsafe : SafeFiles entries := safeFiles_of_scanError hscan
  obtain ⟨w₁, hdirs, hrun⟩ := extractAllSolid_scanned hos crates archive password hscan w
  obtain ⟨w₂, hstream, hmade⟩ := extractStream_run hos hsafe h w₁
  obtain ⟨v, htimes, hquiet⟩ := applyTimes_run dest pipeMode filter hsafe w₂
  have hlen : fs.length = (regular entries).length := by
    rw [← List.length_map List.length, h.sizes, List.length_map]
  refine ⟨v, ?_, .of_made hsafe hlen hdirs hmade hquiet⟩
  rw [hrun, extractSpans, if_pos (blockReads_ne_nil hblocks), Run.bind_of_ok hstream, htimes]

/-! ## only readable archives extract -/

theorem sameData_switchFile (fi : Nat) :
    Run.Steps SameData (switchFile crates entries password fi) := by
  rw [switchFile]
  split
  · exact .panic
  · exact .bind (.ofExcept _) fun crypto => .bind (sameData_authenticate _ _) fun _ => .pure _

theorem sameData_readBlock (g : Gathered) (br : BlockRead) :
    Run.Steps SameData (readBlock crates entries password g br) := by
  rw [readBlock]
  refine .bind (.ite (sameData_switchFile _) (.pure _)) fun crypto =>
    .bind (sameData_seekStart _) fun _ => .bind (fun _ => rfl) fun buf => .ite (.throw _) ?_
  split
  · exact .pure _
  · exact .pure _

theorem present_of_readBlocks {brs : List BlockRead} {g : Gathered} {bytes : List UInt8}
    {c' : Cursor} (hc : c.data = archive.reader.data)
    (h : (readBlocks crates entries password brs g).run c = (.ok bytes, c')) :
    ∀ br ∈ brs, ((archive.reader.data.drop br.dataPos).take br.compressedSize.toNat).length =
      br.compressedSize.toNat := by
  induction brs generalizing c g with
  | nil => simp
  | cons br brs ih =>
      rw [readBlocks, Run.bind_ok] at h
      obtain ⟨g₁, c₁, hfirst, hrest⟩ := h
      have hdata : c₁.data = c.data := (sameData_readBlock g br).of_run hfirst
      refine List.forall_mem_cons.mpr ⟨?_, ih (hdata.trans hc) hrest⟩
      rw [readBlock, Run.bind_ok] at hfirst
      obtain ⟨crypto, c₂, hcrypto, hfirst⟩ := hfirst
      have hsame : Run.Steps SameData (if some br.fileIdx ≠ g.currentFileIdx then
          switchFile crates entries password br.fileIdx else pure g.crypto : Parser _) :=
        .ite (sameData_switchFile _) (.pure _)
      have hc₂ : c₂.data = archive.reader.data := (hsame.of_run hcrypto).trans hc
      rw [Run.bind_ok] at hfirst
      obtain ⟨_, c₃, hseek, hfirst⟩ := hfirst
      simp only [seekStart, Prod.mk.injEq, true_and] at hseek
      subst hseek
      simp only [Run.bind_ok, readUpTo, Prod.mk.injEq, Outcome.ok.injEq] at hfirst
      obtain ⟨_, _, ⟨rfl, rfl⟩, hfirst⟩ := hfirst
      rw [← hc₂]
      by_contra hne
      rw [Cursor.rest, if_pos (Ne.intro hne)] at hfirst
      simp at hfirst

/-- A stream that went through the sink went through the recorder. -/
theorem recorded_of_decompressInto {cfg : SinkConfig} {decode : Decode Unit}
    {stream : List UInt8} {p : SolidSink × World} (hdecode : decode.Streams)
    (h : (decompressInto os cfg decode stream).run (.new, w) = (.ok (), p)) :
    ∃ fs bs : List (List UInt8),
      ((decode.run Prod.mk ByteSink.recorder).run ⟨stream, (), []⟩).1 = .ok () ∧
      ((decode.run Prod.mk ByteSink.recorder).run ⟨stream, (), []⟩).2.out = fs.flatten ∧
      bs.flatten = fs.flatten ∧ fs.map List.length = cfg.fileSpans.map Prod.snd ∧
      bs.map (fun b => (b.length, crc32 b)) = cfg.crcSpans ∧ ∀ c ∈ bs.getLast?, c ≠ [] := by
  rw [decompressInto, Run.bind_ok] at h
  obtain ⟨_, p₁, hrun, hfinish⟩ := h
  rcases hio : (decode.run Prod.mk (SolidSink.sink os cfg)).run
    { rest := stream, crypto := (), out := (.new, w) } with ⟨o, io⟩
  simp only [hio, Prod.mk.injEq] at hrun
  obtain ⟨rfl, rfl⟩ := hrun
  obtain ⟨d, hrec, hold⟩ := hdecode.run_sim SolidSink.sink_simulates hio (SolidSink.holds_new w)
  obtain ⟨fs, bs, hfs, hbs, hfiles, hblocks, hlast, -⟩ := SolidSink.finish_ok hold hfinish
  rw [hrec]
  exact ⟨fs, bs, rfl, hfs, hbs.symm.trans hfs, hfiles, hblocks, hlast⟩

theorem solidReadable_of_stream (hcrates : crates.StopsOnError)
    (h : (extractStream crates os archive entries dest password pipeMode filter
      (.ofEntries entries)).run w = (.ok (), w')) :
    ∃ fs, SolidReadable crates archive password entries fs := by
  rw [extractStream, Run.bind_ok] at h
  obtain ⟨stream, w₁, hread, h⟩ := h
  simp only [onReader, Prod.mk.injEq] at hread
  obtain ⟨hread, rfl⟩ := hread
  have hreads : (readBlocks crates entries password (Spans.ofEntries entries).blockReads .empty).run
    archive.reader = (.ok stream, _) := Prod.ext hread rfl
  obtain ⟨rfl, hauths⟩ := readStream_ok hreads
  have hdecode : (decodeStream (solidMethod entries) crates os entries dest pipeMode filter
      (.ofEntries entries) (solidStream crates archive password entries)).run w = (.ok (), w') := h
  rw [decodeStream_run, totals_ofEntries] at hdecode
  rcases hinto : (decompressInto os (filesConfig entries dest pipeMode filter)
    (decompressSolid crates (solidMethod entries) (solidStream crates archive password entries).length
      (((solidBlocks entries).map fun block => block.uncompressedSize.toNat).sum % 2 ^ 64))
    (solidStream crates archive password entries)).run (.new, w) with ⟨u | e | _ | _, p⟩
  all_goals simp only [hinto, afterStream, Prod.mk.injEq, reduceCtorEq, false_and] at hdecode
  obtain ⟨fs, bs, hok, hout, hflat, hfiles, hblocks, hlast⟩ :=
    recorded_of_decompressInto (stops_decompressSolid hcrates _ _ _).streams hinto
  have hspans : bs.map (fun b => (b.length, crc32 b)) =
      (solidBlocks entries).map fun block => (block.uncompressedSize.toNat, block.crc32) :=
    hblocks.trans (crcSpans_ofEntries entries)
  refine ⟨fs, fun entry hentry hne => ?_, fun block hblock => ?_, hok, hout,
    hfiles.trans (sizes_ofEntries entries), ⟨bs, hflat, hspans⟩, fun block hblock => ?_⟩
  · obtain ⟨crypto, c, c', hc, hsetup, hauth⟩ := hauths entry hentry hne
    refine ⟨crypto, hsetup, ?_⟩
    rw [← authenticate_outcome hc crypto hne, hauth]
  · rw [solidBlocks, ← map_regularIdx, List.flatMap_map, List.mem_flatMap] at hblock
    obtain ⟨p, hp, hmem⟩ := hblock
    exact present_of_readBlocks rfl hreads (blockReadOf p.2 block)
      (List.mem_flatMap.mpr ⟨p, hp, List.mem_map_of_mem hmem⟩)
  · have hgets := congrArg List.getLast? hspans
    rw [List.getLast?_map, List.getLast?_map, Option.mem_def.mp hblock, Option.map_some,
      Option.map_eq_some_iff] at hgets
    obtain ⟨c, hc, hpair⟩ := hgets
    rw [Prod.mk.injEq] at hpair
    intro hzero
    rw [hzero] at hpair
    exact hlast c hc (List.length_eq_zero_iff.mp hpair.1)

/-- A solid archive that extracts can be read, or has no data to be read. -/
theorem solidReadable_of_ok (hos : os.Succeeds) (hcrates : crates.StopsOnError)
    (h : ((extractAllSolid crates os archive entries dest password pipeMode filter).run w).1 =
      .ok ()) : scanError dest pipeMode filter entries = none ∧
      if solidBlocks entries = [] then pipeMode = true ∨ NoBytes entries
      else ∃ fs, SolidReadable crates archive password entries fs := by
  have hscan : scanError dest pipeMode filter entries = none := by
    by_contra hsome
    obtain ⟨e, he⟩ := Option.ne_none_iff_exists'.mp hsome
    rw [extractAllSolid_scanError hos he] at h
    cases h
  refine ⟨hscan, ?_⟩
  obtain ⟨w₁, -, hrun⟩ := extractAllSolid_scanned hos crates archive password hscan w
  split
  · next hnil =>
      cases pipeMode with
      | true => exact .inl rfl
      | false =>
          refine .inr ?_
          by_contra hbytes
          rw [extractAllSolid_lost hos hscan ⟨hnil, hbytes⟩] at h
          cases h
  · next hblocks =>
      have hok : (extractSpans crates os archive entries dest password pipeMode filter
          (.ofEntries entries) >>= fun _ => applyTimes entries dest pipeMode filter).run w₁ =
          (.ok (), _) := Prod.ext (by rw [← hrun, h]) rfl
      rw [Run.bind_ok, extractSpans, if_pos (blockReads_ne_nil hblocks)] at hok
      obtain ⟨_, w₂, hstream, -⟩ := hok
      exact solidReadable_of_stream hcrates hstream

/-- A solid archive without data delivers empty files. -/
theorem extractAllSolid_noData (hos : os.Succeeds)
    (hscan : scanError dest pipeMode filter entries = none) (hnil : solidBlocks entries = [])
    (hzero : NoBytes entries) (w : World) :
    ∃ v, (extractAllSolid crates os archive entries dest password pipeMode filter).run w =
        (.ok (), v) ∧ Delivered dest pipeMode filter entries (emptyFiles entries) w v := by
  obtain ⟨w₁, hdirs, hrun⟩ := extractAllSolid_scanned hos crates archive password hscan w
  obtain ⟨v, hdone, hdelivered⟩ :=
    @withoutData_run os dest pipeMode filter entries w hos (safeFiles_of_scanError hscan)
      hzero w₁ hdirs
  refine ⟨v, ?_, hdelivered⟩
  rw [hrun, extractSpans, if_neg (not_not.mpr (blockReads_eq_nil_iff.mpr hnil)), hdone]

/-- **Exactly the readable solid archives extract**: those whose names may be
joined and which can be read, or have no data to be read; and they deliver the
contents they are read as. -/
theorem extractAllSolid_iff (hos : os.Succeeds) (hcrates : crates.StopsOnError)
    (archive : EggArchive) (entries : List EggFileEntry) (dest : Path) (password : Option String)
    (pipeMode : Bool) (filter : Option (List String)) (w : World) :
    (((extractAllSolid crates os archive entries dest password pipeMode filter).run w).1 = .ok () ↔
        scanError dest pipeMode filter entries = none ∧
          if solidBlocks entries = [] then pipeMode = true ∨ NoBytes entries
          else ∃ fs, SolidReadable crates archive password entries fs) ∧
      ∀ fs, scanError dest pipeMode filter entries = none → solidBlocks entries ≠ [] →
        SolidReadable crates archive password entries fs →
        Delivered dest pipeMode filter entries fs w
          ((extractAllSolid crates os archive entries dest password pipeMode filter).run w).2 := by
  refine ⟨⟨solidReadable_of_ok hos hcrates, ?_⟩, ?_⟩
  · rintro ⟨hscan, h⟩
    split at h
    · next hnil =>
        by_cases hpipe : pipeMode = true
        · subst hpipe
          exact extractAllSolid_lost_pipe hos hscan hnil w
        · obtain ⟨v, hrun, -⟩ := @extractAllSolid_noData crates os archive dest password
            pipeMode filter entries hos hscan hnil (h.resolve_left hpipe) w
          rw [hrun]
    · next hblocks =>
        obtain ⟨fs, hfs⟩ := h
        obtain ⟨v, hrun, -⟩ := extractAllSolid_run hos hscan hblocks hfs w
        rw [hrun]
  · intro fs hscan hblocks hfs
    obtain ⟨v, hrun, hdelivered⟩ := extractAllSolid_run hos hscan hblocks hfs w
    rwa [hrun]

theorem twoFilesOneBlock_iff :
    scanError [.normal "out"] false none twoFilesOneBlock.entries = none ∧
      ∃ fs, SolidReadable .storeOnly twoFilesOneBlock none twoFilesOneBlock.entries fs := by
  have h := (extractAllSolid_iff Os.obliging_succeeds Crates.storeOnly_stops twoFilesOneBlock
    twoFilesOneBlock.entries [.normal "out"] none false none []).1.mp (by decide +kernel)
  rwa [if_neg (by decide +kernel)] at h

end Unegg
