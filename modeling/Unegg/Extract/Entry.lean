import Unegg.Decompress.Checksum
import Unegg.Extract
import Unegg.Extract.Solid

/-!
# Unegg.Extract.Entry

What `extractEntry` has done when it succeeds.

A block's data decodes to certain bytes, given the decryptor it starts from
(`decoded`); an entry's output is the concatenation of what its blocks decode
to (`extractEntry_ok`).  The checksum of each block is compared, its size and
the entry's size are not: the cap keeps a block from being too long, nothing
keeps it from being too short (`extractEntry_length_iff`).
-/

namespace Unegg

open Prog Crc32 Coder

variable {crates : Crates} {os : Os} {archive : EggArchive} {destDir : Path}
  {password : Option String} {pipeMode : Bool} {w₀ w w' : World}
  {outs : List (Target × List UInt8)} {out : Target} {cs : List UInt8} {d d' : Option Decryptor}

/-! ## blocks -/

/-- What a block's data decodes to from a decryptor, and the decryptor after it. -/
def decoded (crates : Crates) (archive : EggArchive) (block : EggBlock) (d : Option Decryptor) :
    List UInt8 × Option Decryptor :=
  let decode := decompress crates block.compressionMethod block.compressedSize.toNat
    block.uncompressedSize.toNat d.isSome
  let io := ((decode.run (decryptSome crates) ByteSink.recorder).run
    { rest := blockData archive block, crypto := d, out := [] }).2
  (io.out, io.crypto)

/-- The same of an entry's blocks, one after the other. -/
def decodedBlocks (crates : Crates) (archive : EggArchive) :
    List EggBlock → Option Decryptor → List (List UInt8)
  | [], _ => []
  | block :: blocks, d =>
    (decoded crates archive block d).1 ::
      decodedBlocks crates archive blocks (decoded crates archive block d).2

/-- A block that was decompressed has put out what its data decodes to. -/
theorem decompressBlock_ok (hcrates : crates.StopsOnError) {block : EggBlock} {crc : UInt32}
    (hw : Wrote w₀ w (outs ++ [(out, cs)]))
    (h : (decompressBlock crates os archive out block).run (d, w) = (.ok crc, (d', w'))) :
    Wrote w₀ w' (outs ++ [(out, cs ++ (decoded crates archive block d).1)]) ∧
      d' = (decoded crates archive block d).2 ∧
      (crates.AzoChecksum → crc = crc32 (decoded crates archive block d).1) := by
  simp only [decompressBlock] at h
  rcases hio : ((decompress crates block.compressionMethod block.compressedSize.toNat
    block.uncompressedSize.toNat d.isSome).run (decryptSome crates) (limitWriter (os.sink out))).run
    (blockIo archive block (d, w)) with ⟨o, io⟩
  simp only [hio, Prod.mk.injEq] at h
  obtain ⟨rfl, rfl, rfl⟩ := h
  have htakes : (limitWriter (os.sink out)).Takes fun e p =>
      Wrote w₀ p.1 (outs ++ [(out, cs ++ e)]) := takes_limitWriter (Os.takes_sink out cs)
  have hsim := simulates_recorder htakes.write_ok fun e p p' hI hflush => by
    have hI' := htakes.flush e p hI
    rwa [hflush] at hI'
  have hstart : Wrote w₀ w (outs ++ [(out, cs ++ [])]) := by rwa [List.append_nil]
  obtain ⟨bs, hrec, hwrote⟩ := (stops_decompress hcrates block.compressionMethod
    block.compressedSize.toNat block.uncompressedSize.toNat d.isSome).streams.run_sim hsim hio hstart
  have hdecoded : decoded crates archive block d = (bs, io.crypto) := by
    simp only [decoded]
    change (((_ : Run _ _ _).run { blockIo archive block (d, w) with out := [] }).2.out,
      ((_ : Run _ _ _).run { blockIo archive block (d, w) with out := [] }).2.crypto) = _
    rw [hrec]
  rw [hdecoded]
  refine ⟨hwrote, rfl, fun hazo => ?_⟩
  obtain ⟨e, rfl, hcrc⟩ := (delivers_decompress hazo block.compressionMethod
    block.compressedSize.toNat block.uncompressedSize.toNat d.isSome).run ByteSink.takes_recorder
    (by rfl) hrec
  exact hcrc

/-- What each block writes, pass by pass. -/
def contributions (crates : Crates) (os : Os) (archive : EggArchive) (out : Target) :
    List EggBlock → Option Decryptor × World → List (List UInt8)
  | [], _ => []
  | block :: blocks, s =>
    let s' := ((decompressBlock crates os archive out block).run s).2
    (written s'.2).drop (written s.2).length :: contributions crates os archive out blocks s'

/-- The block loop, when it succeeds: every block has put out what its data
decodes to, and its checksum was right. -/
theorem blockLoop_ok (hcrates : crates.StopsOnError) {blocks : List EggBlock}
    (hw : Wrote w₀ w (outs ++ [(out, cs)]))
    (h : (Run.forEach (extractBlock crates os archive out) blocks).run (d, w) =
      (.ok (), (d', w'))) :
    Wrote w₀ w' (outs ++ [(out, cs ++ (decodedBlocks crates archive blocks d).flatten)]) ∧
      contributions crates os archive out blocks (d, w) = decodedBlocks crates archive blocks d ∧
      (crates.AzoChecksum →
        (decodedBlocks crates archive blocks d).map crc32 = blocks.map EggBlock.crc32) := by
  induction blocks generalizing d w cs with
  | nil =>
      simp only [Run.forEach, Run.pure_run, Prod.mk.injEq] at h
      obtain ⟨-, rfl, rfl⟩ := h
      exact ⟨by simpa [decodedBlocks] using hw, rfl, fun _ => rfl⟩
  | cons block blocks ih =>
      rw [Run.forEach, Run.bind_ok] at h
      obtain ⟨_, ⟨d₁, w₁⟩, hfirst, hrest⟩ := h
      rw [extractBlock, Run.bind_ok] at hfirst
      obtain ⟨crc, ⟨d₂, w₂⟩, hblock, hcheck⟩ := hfirst
      split at hcheck
      · simp at hcheck
      · next hcrc =>
          simp only [Run.pure_run, Prod.mk.injEq, true_and] at hcheck
          obtain ⟨rfl, rfl⟩ := hcheck
          rw [not_not] at hcrc
          obtain ⟨hw₁, rfl, hsum⟩ := decompressBlock_ok hcrates hw hblock
          obtain ⟨hw', hcontrib, hsums⟩ := ih hw₁ hrest
          refine ⟨?_, ?_, fun hazo => ?_⟩
          · rwa [decodedBlocks, List.flatten_cons, ← List.append_assoc]
          · have hwritten : written w₂ = written w ++ (decoded crates archive block d).1 := by
              rw [hw.written, hw₁.written]
              simp
            simp only [contributions, hblock, hcontrib, decodedBlocks, hwritten, List.drop_left]
          · rw [decodedBlocks, List.map_cons, List.map_cons, hsums hazo, ← hsum hazo, hcrc]

theorem extractBlocks_ok {blocks : List EggBlock}
    (h : (extractBlocks crates os archive out blocks d).run w = (.ok (), w')) :
    ∃ d', (Run.forEach (extractBlock crates os archive out) blocks).run (d, w) =
      (.ok (), (d', w')) := by
  simp only [extractBlocks, Prod.mk.injEq] at h
  exact ⟨_, Prod.ext h.1 (Prod.ext rfl h.2)⟩

/-! ## entries -/

theorem createFile_ok {target : Path} (hw : Wrote w₀ w outs)
    (h : (createFile os target).run w = (.ok (), w')) :
    Wrote w₀ w' (outs ++ [(.file target, [])]) := by
  rw [createFile, Run.bind_ok] at h
  obtain ⟨_, w₁, hparent, hcreate⟩ := h
  exact (hw.createParent (Run.mapErr_ok.mp hparent)).createFile (Run.mapErr_ok.mp hcreate)

theorem openWriter_ok {target : Path} (hw : Wrote w₀ w outs)
    (h : (openWriter os pipeMode target).run w = (.ok out, w')) :
    out = (if pipeMode then .stdout else .file target) ∧ Wrote w₀ w' (outs ++ [(out, [])]) := by
  rw [openWriter] at h
  split at h
  · next hpipe =>
      rw [Run.bind_ok] at h
      obtain ⟨_, w₁, hnote, h⟩ := h
      simp only [Os.note, Run.modify_run, Prod.mk.injEq, true_and] at hnote
      simp only [Run.pure_run, Prod.mk.injEq, Outcome.ok.injEq] at h
      obtain ⟨rfl, rfl⟩ := h
      rw [if_pos hpipe, ← hnote]
      exact ⟨rfl, .stdout hw⟩
  · next hpipe =>
      rw [Run.bind_ok] at h
      obtain ⟨_, w₁, hcreate, h⟩ := h
      simp only [Run.pure_run, Prod.mk.injEq, Outcome.ok.injEq] at h
      obtain ⟨rfl, rfl⟩ := h
      rw [if_neg hpipe]
      exact ⟨rfl, createFile_ok hw hcreate⟩

theorem quiet_stamp (target : Path) (fileTime : Option UInt64) :
    Run.Steps (Adds fun e => e.isQuiet) (stamp pipeMode target fileTime) := by
  unfold stamp
  split
  · exact .pure ()
  · split
    · exact quiet_setFileTime target _
    · exact .pure ()

/-- The output an entry goes to. -/
def entryTarget (pipeMode : Bool) (target : Path) : Target :=
  if pipeMode then .stdout else .file target

/-- What each block of an entry writes when it is extracted from `w` on. -/
def entryContributions (crates : Crates) (os : Os) (archive : EggArchive) (destDir : Path)
    (password : Option String) (pipeMode : Bool) (entry : EggFileEntry) (w : World) :
    List (List UInt8) :=
  match safeJoin destDir entry.fileName with
  | .error _ => []
  | .ok target =>
    contributions crates os archive (entryTarget pipeMode target) entry.blocks
      (freshDecryptor crates password entry, ((openWriter os pipeMode target).run w).2)

/-- What the blocks of an entry decode to, from the entry's own decryptor. -/
def entryBlocks (crates : Crates) (archive : EggArchive) (password : Option String)
    (entry : EggFileEntry) : List (List UInt8) :=
  decodedBlocks crates archive entry.blocks (freshDecryptor crates password entry)

/-- An entry without blocks declares no bytes, and is an empty file. -/
theorem extractEntry_ok_empty {entry : EggFileEntry} (hdir : entry.isDirectory = false)
    (hnil : entry.blocks = []) (hw : Wrote w₀ w outs)
    (h : (extractEntry crates os archive destDir password pipeMode entry).run w = (.ok (), w')) :
    ∃ target, safeJoin destDir entry.fileName = .ok target ∧ entry.uncompressedSize = 0 ∧
      Wrote w₀ w' (outs ++ if pipeMode then [] else [(.file target, [])]) := by
  rw [extractEntry, Run.bind_ok] at h
  obtain ⟨target, w₁, hrun, h⟩ := h
  obtain ⟨hjoin, rfl⟩ := Run.ofExcept_ok.mp hrun
  rw [if_neg (by simp [hdir]), if_pos hnil] at h
  refine ⟨target, hjoin, ?_⟩
  split at h
  · simp at h
  · next hsize =>
      rw [not_not] at hsize
      refine ⟨hsize, ?_⟩
      split at h
      · next hpipe =>
          simp only [Run.pure_run, Prod.mk.injEq, true_and] at h
          rw [if_pos hpipe, ← h, List.append_nil]
          exact hw
      · next hpipe =>
          rw [if_neg hpipe]
          exact createFile_ok hw h

/-- **An entry with blocks** has put out what its blocks decode to. -/
theorem extractEntry_ok (hcrates : crates.StopsOnError) {entry : EggFileEntry}
    (hdir : entry.isDirectory = false) (hne : entry.blocks ≠ []) (hw : Wrote w₀ w outs)
    (h : (extractEntry crates os archive destDir password pipeMode entry).run w = (.ok (), w')) :
    ∃ target, safeJoin destDir entry.fileName = .ok target ∧
      Wrote w₀ w' (outs ++ [(entryTarget pipeMode target,
        (entryBlocks crates archive password entry).flatten)]) ∧
      entryContributions crates os archive destDir password pipeMode entry w =
        entryBlocks crates archive password entry ∧
      (crates.AzoChecksum → (entryBlocks crates archive password entry).map crc32 =
        entry.blocks.map EggBlock.crc32) := by
  rw [extractEntry, Run.bind_ok] at h
  obtain ⟨target, w₁, hrun, h⟩ := h
  obtain ⟨hjoin, rfl⟩ := Run.ofExcept_ok.mp hrun
  rw [if_neg (by simp [hdir]), if_neg hne, extractData, Run.bind_ok] at h
  obtain ⟨crypto, w₂, hrun, h⟩ := h
  obtain ⟨hsetup, rfl⟩ := Run.ofExcept_ok.mp hrun
  rw [Run.bind_ok] at h
  obtain ⟨_, w₃, hauth, h⟩ := h
  simp only [onReader, Prod.mk.injEq] at hauth
  obtain ⟨-, rfl⟩ := hauth
  rw [Run.bind_ok] at h
  obtain ⟨out, w₄, hopen, h⟩ := h
  obtain ⟨hout, hw₄⟩ := openWriter_ok hw hopen
  rw [Run.bind_ok] at h
  obtain ⟨r, w₅, hblocks, h⟩ := h
  have hfresh : freshDecryptor crates password entry = crypto.map FileCrypto.decryptor := by
    rw [freshDecryptor, hsetup]
  cases r with
  | error e =>
      simp only at h
      rw [Run.bind_ok] at h
      obtain ⟨_, _, _, h⟩ := h
      simp at h
  | ok u =>
      simp only at h
      obtain ⟨d', hloop⟩ := extractBlocks_ok (Run.attempt_ok.mp hblocks)
      obtain ⟨hw₅, hcontrib, hsums⟩ := blockLoop_ok hcrates hw₄ hloop
      rw [← hfresh] at hw₅ hcontrib hsums
      refine ⟨target, hjoin, ?_, ?_, hsums⟩
      · rw [entryTarget, ← hout]
        exact hw₅.adds ((quiet_stamp _ _).of_run h)
      · rw [entryContributions, hjoin]
        simp only [hopen, entryTarget, ← hout, hcontrib, entryBlocks]

/-- **No short file**: an extraction that succeeds has written the declared
size, each block its own, if and only if every block's data decodes to its
declared size and these add up to the entry's. -/
theorem extractEntry_length_iff (hcrates : crates.StopsOnError) {entry : EggFileEntry}
    (hdir : entry.isDirectory = false)
    (h : (extractEntry crates os archive destDir password pipeMode entry).run w = (.ok (), w')) :
    ((written w').length = (written w).length + entry.uncompressedSize.toNat ∧
        (entryContributions crates os archive destDir password pipeMode entry w).map List.length =
          entry.blocks.map fun block => block.uncompressedSize.toNat) ↔
      (entryBlocks crates archive password entry).map List.length =
          (entry.blocks.map fun block => block.uncompressedSize.toNat) ∧
        (entry.blocks.map fun block => block.uncompressedSize.toNat).sum =
          entry.uncompressedSize.toNat := by
  by_cases hnil : entry.blocks = []
  · obtain ⟨target, hjoin, hsize, hw⟩ := extractEntry_ok_empty hdir hnil .start h
    have hwritten : written w' = written w := by
      rw [hw.written]
      cases pipeMode <;> simp
    have hcontrib : entryContributions crates os archive destDir password pipeMode entry w = [] := by
      simp [entryContributions, hjoin, hnil, contributions]
    simp [hwritten, hcontrib, entryBlocks, hnil, decodedBlocks, hsize]
  · obtain ⟨target, -, hw, hcontrib, -⟩ := extractEntry_ok hcrates hdir hnil .start h
    have hwritten : (written w').length = (written w).length +
        ((entryBlocks crates archive password entry).map List.length).sum := by
      rw [hw.written]
      simp [List.length_flatten]
    rw [hcontrib, hwritten]
    constructor
    · rintro ⟨htotal, hsizes⟩
      rw [hsizes] at htotal
      exact ⟨hsizes, by omega⟩
    · rintro ⟨hsizes, htotal⟩
      rw [hsizes]
      exact ⟨by omega, rfl⟩

/-- The data of two stored blocks, `"a"` and `"b"`. -/
def storedBytes : EggArchive where
  reader := ⟨[0x61, 0x62], 0⟩
  entries := []
  isEncrypted := false
  isSolid := false
  headerId := 0
  splitInfo := none

/-- Two blocks of one byte each, as declared. -/
def fullEntry : EggFileEntry :=
  ⟨"ab", 0, 2, [⟨.store, 1, 1, 0xE8B7BE43, 0⟩, ⟨.store, 1, 1, 0x71BEEFF9, 1⟩], none, none, 0, none⟩

theorem fullEntry_full :
    ∃ w', (extractEntry .storeOnly .obliging storedBytes [.normal "out"] none false fullEntry).run [] =
        (.ok (), w') ∧ (written w').length = (written []).length + 2 ∧
      (entryContributions .storeOnly .obliging storedBytes [.normal "out"] none false fullEntry
        []).map List.length = [1, 1] := by
  obtain ⟨w', hrun⟩ : ∃ w', (extractEntry .storeOnly .obliging storedBytes [.normal "out"] none false
      fullEntry).run [] = (.ok (), w') := ⟨_, Prod.ext (by decide +kernel) rfl⟩
  exact ⟨w', hrun, (extractEntry_length_iff Crates.storeOnly_stops (by decide) hrun).mpr
    (by decide +kernel)⟩

/-- A block of one byte that declares two. -/
def shortEntry : EggFileEntry :=
  ⟨"a", 0, 2, [⟨.store, 2, 1, 0xE8B7BE43, 0⟩], none, none, 0, none⟩

/-- It is extracted without an error. -/
theorem shortEntry_short :
    shortEntry.isDirectory = false ∧
      (extractEntry .storeOnly .obliging storedBytes [.normal "out"] none false shortEntry).run [] =
        (.ok (), [.createDirAll [.normal "out"] true, .create [.normal "out", .normal "a"] true,
          .write (.file [.normal "out", .normal "a"]) [0x61]]) ∧
      shortEntry.uncompressedSize = 2 ∧
      (shortEntry.blocks.map fun block => block.uncompressedSize) = [2] := by
  decide +kernel

end Unegg
