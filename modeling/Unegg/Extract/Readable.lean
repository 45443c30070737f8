import Unegg.Coder.Accepts
import Unegg.Extract.Authenticated
import Unegg.Extract.Delivered
import Unegg.Extract.Entry

/-!
# Unegg.Extract.Readable

What makes an entry extract, told without running the extraction: its name may
be joined, its password and its footer are right, and each of its blocks
decodes, from the keys the one before has left, to no more than it declares and
with the checksum it declares (`Readable`).  When every call to the outside
succeeds an entry is extracted if it is readable; it never is when it is not
(`extractEntry_iff`).
-/

namespace Unegg

open Prog Crc32

variable {crates : Crates} {os : Os} {archive : EggArchive} {dest : Path}
  {password : Option String} {pipeMode : Bool} {entry : EggFileEntry} {block : EggBlock}
  {blocks : List EggBlock} {w₀ w w' : World} {t : Target} {cs content : List UInt8}
  {contents : List (List UInt8)} {d d' : Option Decryptor}

/-! ## one block -/

/-- The decompressor of a block on the recorder. -/
def recordBlock (crates : Crates) (archive : EggArchive) (block : EggBlock) (d : Option Decryptor) :
    Outcome EggError UInt32 × Io (Option Decryptor) (List UInt8) :=
  ((decompress crates block.compressionMethod block.compressedSize.toNat
      block.uncompressedSize.toNat d.isSome).run (decryptSome crates) ByteSink.recorder).run
    ⟨blockData archive block, d, []⟩

/-- A block decodes to `content`, and the keys go from `d` to `d'`. -/
structure BlockDecodes (crates : Crates) (archive : EggArchive) (block : EggBlock)
    (d : Option Decryptor) (content : List UInt8) (d' : Option Decryptor) : Prop where
  returns : (recordBlock crates archive block d).1 = .ok block.crc32
  crypto : (recordBlock crates archive block d).2.crypto = d'
  out : (recordBlock crates archive block d).2.out = content
  fits : content.length ≤ block.uncompressedSize.toNat

/-- A capped file takes what its cap leaves room for. -/
theorem accepts_limitWriter (hos : os.Succeeds) {cap : Nat} {total : List UInt8}
    (hcap : total.length ≤ cap) :
    (limitWriter (os.sink t)).Accepts
      (fun bs p => bs.length + p.2 = cap ∧ Made w₀ p.1 [(t, cs ++ bs)]) total where
  writeAll := by
    rintro bs bs' ⟨w, room⟩ ⟨hroom, hmade⟩ hpre
    dsimp only at hroom hmade
    have hlen := hpre.length_le
    rw [List.length_append] at hlen
    have h := limit_writeAll hos t bs' w room
    rw [if_neg (by omega)] at h
    obtain ⟨w', hrun, hto⟩ := h
    refine ⟨_, ByteSink.writeAll_ok.mpr hrun, ?_, ?_⟩
    · rw [List.length_append]
      dsimp only
      omega
    · rw [← List.append_assoc]
      exact hmade.fill hos hto
  flush := by
    rintro bs p h
    refine ⟨p, ?_, h⟩
    simp only [limitWriter, Os.sink, hos.flush]

theorem extractBlock_run (hos : os.Succeeds) (h : BlockDecodes crates archive block d content d')
    (hmade : Made w₀ w [(t, cs)]) :
    ∃ w', (extractBlock crates os archive t block).run (d, w) = (.ok (), (d', w')) ∧
      Made w₀ w' [(t, cs ++ content)] := by
  have hmade₀ : Made w₀ w [(t, cs ++ [])] := by rwa [List.append_nil]
  have hpre : (recordBlock crates archive block d).2.out <+: content := by rw [h.out]
  obtain ⟨⟨w', room⟩, hrun, -, hmade'⟩ :=
    Coder.run_accepts (accepts_limitWriter hos h.fits) _
      (Prod.ext h.returns rfl :
        recordBlock crates archive block d = (_, (recordBlock crates archive block d).2)) hpre
      (s := (w, block.uncompressedSize.toNat)) ⟨Nat.zero_add _, hmade₀⟩
  rw [h.out] at hmade'
  have hblock : (decompressBlock crates os archive t block).run (d, w) =
      (.ok block.crc32, (d', w')) := by
    have hio : blockIo archive block (d, w) =
        ⟨blockData archive block, d, (w, block.uncompressedSize.toNat)⟩ := rfl
    simp only [decompressBlock, hio, hrun, h.crypto]
  refine ⟨w', ?_, hmade'⟩
  rw [extractBlock, Run.bind_of_ok hblock, if_neg (not_not.mpr rfl), Run.pure_run]

/-! ## the blocks of an entry -/

/-- Blocks that decode, one after the other. -/
inductive BlocksDecode (crates : Crates) (archive : EggArchive) :
    List EggBlock → Option Decryptor → List (List UInt8) → Prop
  | nil {d : Option Decryptor} : BlocksDecode crates archive [] d []
  | cons {block : EggBlock} {blocks : List EggBlock} {d d' : Option Decryptor}
      {content : List UInt8} {contents : List (List UInt8)}
      (h : BlockDecodes crates archive block d content d')
      (hs : BlocksDecode crates archive blocks d' contents) :
      BlocksDecode crates archive (block :: blocks) d (content :: contents)

theorem blockLoop_run (hos : os.Succeeds) (h : BlocksDecode crates archive blocks d contents)
    (hmade : Made w₀ w [(t, cs)]) :
    ∃ d' w', (Run.forEach (extractBlock crates os archive t) blocks).run (d, w) =
        (.ok (), (d', w')) ∧ Made w₀ w' [(t, cs ++ contents.flatten)] := by
  induction h generalizing w cs with
  | nil => exact ⟨_, w, rfl, by simpa using hmade⟩
  | cons h _ ih =>
      obtain ⟨w₁, hrun, hmade₁⟩ := extractBlock_run hos h hmade
      obtain ⟨d', w', hloop, hmade'⟩ := ih hmade₁
      refine ⟨d', w', ?_, by rwa [List.flatten_cons, ← List.append_assoc]⟩
      rw [Run.forEach, Run.bind_of_ok hrun, hloop]

/-! ## an entry -/

/-- The data of an entry can be read. -/
structure DataReadable (crates : Crates) (archive : EggArchive) (password : Option String)
    (entry : EggFileEntry) (contents : List (List UInt8)) : Prop where
  unlocks : ∃ crypto, setupDecryptor crates entry password = .ok crypto ∧
    ((authenticate crates entry crypto).run archive.reader).1 = .ok () ∧
    BlocksDecode crates archive entry.blocks (crypto.map FileCrypto.decryptor) contents

/-- An entry that extracts, to `content`: a directory, an empty file, or a file
whose data can be read. -/
inductive Readable (crates : Crates) (archive : EggArchive) (password : Option String)
    (entry : EggFileEntry) : List UInt8 → Prop
  | directory (hdir : entry.isDirectory) : Readable crates archive password entry []
  | empty (hdir : entry.isDirectory = false) (hblocks : entry.blocks = [])
      (hsize : entry.uncompressedSize = 0) : Readable crates archive password entry []
  | file {contents : List (List UInt8)} (hdir : entry.isDirectory = false) (hblocks : entry.blocks ≠ [])
      (hdata : DataReadable crates archive password entry contents) :
      Readable crates archive password entry contents.flatten

theorem extractData_run (hos : os.Succeeds)
    (h : DataReadable crates archive password entry contents) (target : Path) (w : World) :
    ∃ v, (extractData crates os archive password pipeMode entry target).run w = (.ok (), v) ∧
      Made w v [(if pipeMode then .stdout else .file target, contents.flatten)] := by
  obtain ⟨crypto, hsetup, hauth, hdecodes⟩ := h.unlocks
  obtain ⟨w₁, hopen, hmade⟩ := openWriter_made hos pipeMode target w
  obtain ⟨d', w₂, hloop, hmade₂⟩ := blockLoop_run hos hdecodes hmade
  obtain ⟨v, hstamp, hquiet⟩ := stamp_run pipeMode target entry.fileTime w₂
  have hreader : (onReader archive (authenticate crates entry crypto)).run w = (.ok (), w) := by
    simp only [onReader, hauth]
  have hblocks : (extractBlocks crates os archive (if pipeMode then .stdout else .file target)
      entry.blocks (crypto.map FileCrypto.decryptor)).run w₁ = (.ok (), w₂) := by
    simp only [extractBlocks, hloop]
  refine ⟨v, ?_, by simpa using hmade₂.adds hquiet⟩
  rw [extractData, Run.bind_of_ok (Run.ofExcept_ok.mpr ⟨hsetup, rfl⟩), Run.bind_of_ok hreader,
    Run.bind_of_ok hopen, Run.bind_of_ok (Run.attempt_of_ok hblocks)]
  exact hstamp

/-- A readable entry extracts, to its content. -/
theorem entryOutcome_of_readable (hos : os.Succeeds) (hname : SafeName entry.fileName)
    (h : Readable crates archive password entry content) :
    entryOutcome crates os archive dest password entry = .ok () ∧
      entryContent crates os archive dest password entry = content := by
  obtain ⟨path, hjoin⟩ := hname.joins dest
  have hbegin {m : Path → Extract Unit} {w v : World} (hrun : (m path).run w = (.ok (), v)) :
      (Run.ofExcept (safeJoin dest entry.fileName) >>= m).run w = (.ok (), v) := by
    rw [Run.bind_of_ok (Run.ofExcept_ok.mpr ⟨hjoin, rfl⟩), hrun]
  suffices hrun : ∃ v, (extractEntry crates os archive dest password false entry).run [] =
      (.ok (), v) ∧ written v = content by
    obtain ⟨v, hrun, hwritten⟩ := hrun
    rw [entryOutcome, entryContent, hrun]
    exact ⟨rfl, hwritten⟩
  cases h with
  | directory hdir =>
      obtain ⟨v, hrun, hdone⟩ := directory_done hos false hjoin hdir []
      exact ⟨v, hbegin (by simpa [hdir] using hrun), by simpa [written] using hdone.written⟩
  | empty hdir hblocks hsize =>
      obtain ⟨v, hrun, hdone⟩ := empty_done hos false hjoin hdir hblocks []
      exact ⟨v, hbegin (by simpa [hdir, hblocks, hsize] using hrun), by simpa [written] using hdone.written⟩
  | file hdir hblocks hdata =>
      obtain ⟨v, hrun, hmade⟩ := extractData_run hos hdata path []
      refine ⟨v, hbegin ?_, by simpa [written] using hmade.wrote.written⟩
      rw [if_neg (by simp [hdir]), if_neg hblocks]
      exact hrun

/-! ## only readable entries extract -/

/-- What a capped writer has taken and the room that is left make up the cap. -/
theorem simulates_room {cap : Nat} :
    Coder.Simulates (limitWriter (os.sink t)) ByteSink.recorder
      fun p (bs : List UInt8) => bs.length + p.2 = cap := by
  refine Coder.simulates_recorder (fun bs bs' p n p' hI h => ?_) fun bs p p' hI h => ?_
  · have hle := (limitWriter (os.sink t)).write_le _ _ _ _ h
    simp only [limitWriter] at h
    split at h
    · simp at h
    · rcases hwrite : ((os.sink t).write bs).run p.1 with ⟨m | e | _ | _, v⟩
      · simp only [hwrite, Prod.mk.injEq, Outcome.ok.injEq] at h
        obtain ⟨rfl, rfl⟩ := h
        rw [List.length_append, List.length_take, Nat.min_eq_left hle]
        dsimp only
        omega
      all_goals simp [hwrite] at h
  · simp only [limitWriter, Prod.mk.injEq] at h
    rw [← h.2]
    exact hI

theorem blockDecodes_of_ok (hcrates : crates.StopsOnError)
    (h : (extractBlock crates os archive t block).run (d, w) = (.ok (), (d', w'))) :
    ∃ content, BlockDecodes crates archive block d content d' := by
  rw [extractBlock, Run.bind_ok] at h
  obtain ⟨crc, ⟨d₁, w₁⟩, hblock, hcheck⟩ := h
  split at hcheck
  · simp at hcheck
  next hcrc =>
    rw [not_not] at hcrc
    simp only [Run.pure_run, Prod.mk.injEq, true_and] at hcheck
    obtain ⟨rfl, rfl⟩ := hcheck
    simp only [decompressBlock] at hblock
    rcases hio : ((decompress crates block.compressionMethod block.compressedSize.toNat
      block.uncompressedSize.toNat d.isSome).run (decryptSome crates) (limitWriter (os.sink t))).run
      (blockIo archive block (d, w)) with ⟨o, io⟩
    simp only [hio, Prod.mk.injEq] at hblock
    obtain ⟨rfl, rfl, rfl⟩ := hblock
    obtain ⟨bs, hrec, hroom⟩ := (stops_decompress hcrates block.compressionMethod
      block.compressedSize.toNat block.uncompressedSize.toNat d.isSome).streams.run_sim
      simulates_room hio (u := []) (Nat.zero_add block.uncompressedSize.toNat)
    have hrecord : recordBlock crates archive block d = (.ok crc, { io with out := bs }) := hrec
    refine ⟨bs, ?_, ?_, ?_, by omega⟩
    · rw [hrecord, hcrc]
    · rw [hrecord]
    · rw [hrecord]

theorem blocksDecode_of_ok (hcrates : crates.StopsOnError)
    (h : (Run.forEach (extractBlock crates os archive t) blocks).run (d, w) = (.ok (), (d', w'))) :
    ∃ contents, BlocksDecode crates archive blocks d contents := by
  induction blocks generalizing d w with
  | nil => exact ⟨[], .nil⟩
  | cons block blocks ih =>
      rw [Run.forEach, Run.bind_ok] at h
      obtain ⟨_, ⟨d₁, w₁⟩, hfirst, hrest⟩ := h
      obtain ⟨content, hblock⟩ := blockDecodes_of_ok hcrates hfirst
      obtain ⟨contents, hblocks⟩ := ih hrest
      exact ⟨content :: contents, .cons hblock hblocks⟩

theorem dataReadable_of_ok (hcrates : crates.StopsOnError) {target : Path}
    (h : (extractData crates os archive password pipeMode entry target).run w = (.ok (), w')) :
    ∃ contents, DataReadable crates archive password entry contents := by
  rw [extractData, Run.bind_ok] at h
  obtain ⟨crypto, w₁, hrun, h⟩ := h
  obtain ⟨hsetup, rfl⟩ := Run.ofExcept_ok.mp hrun
  rw [Run.bind_ok] at h
  obtain ⟨_, w₂, hauth, h⟩ := h
  simp only [onReader, Prod.mk.injEq] at hauth
  rw [Run.bind_ok] at h
  obtain ⟨out, w₃, -, h⟩ := h
  rw [Run.bind_ok] at h
  obtain ⟨r, w₄, hblocks, h⟩ := h
  cases r with
  | error e =>
      simp only at h
      rw [Run.bind_ok] at h
      obtain ⟨_, _, _, h⟩ := h
      simp at h
  | ok u =>
      obtain ⟨d', hloop⟩ := extractBlocks_ok (Run.attempt_ok.mp hblocks)
      obtain ⟨contents, hdecodes⟩ := blocksDecode_of_ok hcrates hloop
      exact ⟨contents, crypto, hsetup, hauth.1, hdecodes⟩

theorem readable_of_ok (hcrates : crates.StopsOnError)
    (h : (extractEntry crates os archive dest password pipeMode entry).run w = (.ok (), w')) :
    SafeName entry.fileName ∧ ∃ content, Readable crates archive password entry content := by
  rw [extractEntry, Run.bind_ok] at h
  obtain ⟨target, w₁, hrun, h⟩ := h
  obtain ⟨hjoin, rfl⟩ := Run.ofExcept_ok.mp hrun
  refine ⟨(safeJoin_ok.mp hjoin).1, ?_⟩
  by_cases hdir : entry.isDirectory
  · exact ⟨[], .directory hdir⟩
  · rw [if_neg hdir] at h
    by_cases hblocks : entry.blocks = []
    · rw [if_pos hblocks] at h
      by_cases hsize : entry.uncompressedSize = 0
      · exact ⟨[], .empty (by simpa using hdir) hblocks hsize⟩
      · simp [hsize] at h
    · rw [if_neg hblocks] at h
      obtain ⟨contents, hdata⟩ := dataReadable_of_ok hcrates h
      exact ⟨contents.flatten, .file (by simpa using hdir) hblocks hdata⟩

/-- **Exactly the readable entries extract**: whatever has happened before and
wherever the output goes, and then to the content they are read as. -/
theorem extractEntry_iff (hos : os.Succeeds) (hcrates : crates.StopsOnError) (archive : EggArchive)
    (dest : Path) (password : Option String) (pipeMode : Bool) (entry : EggFileEntry) (w : World) :
    (((extractEntry crates os archive dest password pipeMode entry).run w).1 = .ok () ↔
        SafeName entry.fileName ∧ ∃ content, Readable crates archive password entry content) ∧
      ∀ content, SafeName entry.fileName → Readable crates archive password entry content →
        EntryDone dest pipeMode entry content w
          ((extractEntry crates os archive dest password pipeMode entry).run w).2 := by
  have hdetermined : _ = entryOutcome crates os archive dest password entry ∧ _ :=
    extractEntry_determined hos pipeMode entry w
  obtain ⟨houtcome, hdone⟩ := hdetermined
  refine ⟨⟨fun h => readable_of_ok hcrates (Prod.ext h rfl), ?_⟩, ?_⟩
  · rintro ⟨hname, content, h⟩
    rw [houtcome]
    exact (entryOutcome_of_readable hos hname h).1
  · intro content hname h
    have hrun : entryOutcome crates os archive dest password entry = .ok () ∧ _ :=
      entryOutcome_of_readable hos hname h
    obtain ⟨hok, hcontent⟩ := hrun
    rw [← hcontent]
    exact hdone hok

/-- Two stored blocks of one byte each. -/
theorem fullEntry_iff :
    SafeName fullEntry.fileName ∧
      ∃ content, Readable .storeOnly storedBytes none fullEntry content :=
  (extractEntry_iff Os.obliging_succeeds Crates.storeOnly_stops storedBytes [.normal "out"] none
    false fullEntry []).1.mp (by decide +kernel)

end Unegg
