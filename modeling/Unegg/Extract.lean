import Unegg.Decompress
import Unegg.Decryptor
import Unegg.SolidSink

/-!
# Unegg.Extract

The two ways an archive is extracted (`extract.rs`): entry by entry
(`extractEntry`), or as one solid stream through the `SolidSink`
(`extractAllSolid`).

Every use of the archive's reader seeks to an absolute position first, so the
reader is taken as the archive has it and its position is not kept; the state
of an extraction is the `World`.
-/

namespace Unegg

open Prog

abbrev Extract := Run World EggError

/-- Read from the archive. -/
def onReader {α : Type} (archive : EggArchive) (m : Parser α) : Extract α := ⟨fun w =>
  ((m.run archive.reader).1, w)⟩

variable (crates : Crates) (os : Os)

/-! ## files and directories -/

def createDirAll (p : Path) : Extract Unit := Run.mapErr .cantOpenDestFile (os.mkdirAll p)

/-- Create a file and the directories above it. -/
def createFile (target : Path) : Extract Unit := do
  Run.mapErr .cantOpenDestFile (os.createParent target)
  Run.mapErr .cantOpenDestFile (os.createFile target)

def epochDiff : Nat := 11644473600

def ticksPerSec : Nat := 10000000

/-- FILETIME to Unix time; earlier times are left alone, as is a failure to set
one. -/
def setFileTime (path : Path) (filetime : UInt64) : Extract Unit :=
  if filetime.toNat < epochDiff * ticksPerSec then return ()
  else
    let unixSecs := filetime.toNat / ticksPerSec - epochDiff
    let nanos := (filetime.toNat % ticksPerSec) * 100
    Os.note (.setTime path unixSecs nanos)

/-! ## one entry -/

section Entry

variable (archive : EggArchive)

/-- What a decompressor runs on: the block's data, the entry's decryptor, and
the output with the block's uncompressed size as the cap. -/
def blockIo (block : EggBlock) (p : Option Decryptor × World) :
    Io (Option Decryptor) (World × Nat) where
  rest := (archive.reader.data.drop block.dataPos).take block.compressedSize.toNat
  crypto := p.1
  out := (p.2, block.uncompressedSize.toNat)

def decompressBlock (out : Target) (block : EggBlock) :
    Run (Option Decryptor × World) EggError UInt32 := ⟨fun p =>
  let decode := decompress crates block.compressionMethod block.compressedSize.toNat
    block.uncompressedSize.toNat p.1.isSome
  let r := (decode.run (decryptSome crates) (limitWriter (os.sink out))).run
    (blockIo archive block p)
  (r.1, (r.2.crypto, r.2.out.1))⟩

/-- One pass of the block loop. -/
def extractBlock (out : Target) (block : EggBlock) :
    Run (Option Decryptor × World) EggError Unit := do
  let crc ← decompressBlock crates os archive out block
  if crc ≠ block.crc32 then Run.throw (.invalidFileCrc block.crc32 crc)
  else return ()

/-- The block loop of an entry. -/
def extractBlocks (out : Target) (blocks : List EggBlock) (crypto : Option Decryptor) :
    Extract Unit := ⟨fun w =>
  let r := (Run.forEach (extractBlock crates os archive out) blocks).run (crypto, w)
  (r.1, r.2.2)⟩

variable (destDir : Path) (password : Option String) (pipeMode : Bool)

/-- The output of an entry: `io::stdout()` or its file. -/
def openWriter (target : Path) : Extract Target :=
  if pipeMode then do
    Os.note .stdout
    return .stdout
  else do
    createFile os target
    return .file target

/-- A file that failed is removed. -/
def discard (target : Path) : Extract Unit :=
  if pipeMode then return () else Os.note (.remove target)

/-- A file that is complete gets its time. -/
def stamp (target : Path) (fileTime : Option UInt64) : Extract Unit :=
  if pipeMode then return ()
  else
    match fileTime with
    | some ft => setFileTime target ft
    | none => return ()

/-- An entry with blocks: they are decrypted, decompressed and checked one by
one. -/
def extractData (entry : EggFileEntry) (target : Path) : Extract Unit := do
  let crypto ← Run.ofExcept (setupDecryptor crates entry password)
  onReader archive (authenticate crates entry crypto)
  let out ← openWriter os pipeMode target
  match ← Run.attempt (extractBlocks crates os archive out entry.blocks
    (crypto.map FileCrypto.decryptor)) with
  | .error e =>
    discard pipeMode target
    Run.throw e
  | .ok _ => stamp pipeMode target entry.fileTime

def extractEntry (entry : EggFileEntry) : Extract Unit := do
  let target ← Run.ofExcept (safeJoin destDir entry.fileName)
  if entry.isDirectory then
    if pipeMode then return () else createDirAll os target
  else if entry.blocks = [] then
    if entry.uncompressedSize ≠ 0 then Run.throw .corruptedFile
    else if pipeMode then return ()
    else createFile os target
  else extractData crates os archive password pipeMode entry target

end Entry

/-! ## a solid archive -/

structure BlockRead where
  fileIdx : Nat
  compressedSize : UInt32
  dataPos : Nat
  deriving Repr, DecidableEq

structure Spans where
  fileSpans : List (Nat × Nat)
  crcSpans : List (Nat × UInt32)
  blockReads : List BlockRead
  deriving Repr, DecidableEq

def Spans.empty : Spans := ⟨[], [], []⟩

/-- A regular entry takes its place in both tilings. -/
def Spans.push (spans : Spans) (entry : EggFileEntry) (fi : Nat) : Spans where
  fileSpans := spans.fileSpans ++ [(fi, entry.uncompressedSize.toNat)]
  crcSpans := spans.crcSpans ++
    entry.blocks.map fun block => (block.uncompressedSize.toNat, block.crc32)
  blockReads := spans.blockReads ++
    entry.blocks.map fun block => ⟨fi, block.compressedSize, block.dataPos⟩

/-- What has been gathered of the compressed stream. -/
structure Gathered where
  currentFileIdx : Option Nat
  crypto : Option FileCrypto
  allCompressed : List UInt8

def Gathered.empty : Gathered := ⟨none, none, []⟩

section Solid

variable (archive : EggArchive) (entries : List EggFileEntry) (destDir : Path)
  (password : Option String) (pipeMode : Bool) (filter : Option (List String))

/-- Only directories that pass the filter are made. -/
def makeDirectory (entry : EggFileEntry) : Extract Unit :=
  if !pipeMode && shouldExtract entry filter then do
    let dirPath ← Run.ofExcept (safeJoin destDir entry.fileName)
    createDirAll os dirPath
  else return ()

/-- One pass of the scan over the entries: directories are made, the names of
regular entries are checked. -/
def scanEntry (entry : EggFileEntry) (fi : Nat) (spans : Spans) : Extract Spans :=
  if entry.isDirectory then do
    makeDirectory os destDir pipeMode filter entry
    return spans
  else do
    let _ ← Run.ofExcept (safeJoin destDir entry.fileName)
    return spans.push entry fi

def scanEntries : List (EggFileEntry × Nat) → Spans → Extract Spans
  | [], spans => return spans
  | (entry, fi) :: rest, spans => do
    let spans ← scanEntry os destDir pipeMode filter entry fi spans
    scanEntries rest spans

/-- The decryptor of a file, authenticated. -/
def switchFile (fi : Nat) : Parser (Option FileCrypto) :=
  match entries[fi]? with
  | none => Run.panic
  | some entry => do
    let crypto ← Run.ofExcept (setupDecryptor crates entry password)
    authenticate crates entry crypto
    return crypto

/-- Read and decrypt one block. -/
def readBlock (g : Gathered) (br : BlockRead) : Parser Gathered := do
  let crypto ← (if some br.fileIdx ≠ g.currentFileIdx then
    switchFile crates entries password br.fileIdx else pure g.crypto : Parser _)
  seekStart br.dataPos
  let want := br.compressedSize.toNat
  let buf ← readUpTo want
  if buf.length ≠ want then Run.throw .corruptedFile
  else
    match crypto with
    | none => return ⟨some br.fileIdx, none, g.allCompressed ++ buf⟩
    | some fc =>
      let (buf, decryptor) := fc.decryptor.decrypt crates buf
      return ⟨some br.fileIdx, some { fc with decryptor }, g.allCompressed ++ buf⟩

def readBlocks : List BlockRead → Gathered → Parser (List UInt8)
  | [], g => return g.allCompressed
  | br :: brs, g => do
    let g ← readBlock crates entries password g br
    readBlocks brs g

/-- The method of the first block of any entry. -/
def solidMethod : CompressionMethod :=
  match (entries.flatMap EggFileEntry.blocks).head? with
  | some block => block.compressionMethod
  | none => .store

/-- Decompress a stream into the sink and finish it. -/
def decompressInto (cfg : SinkConfig) (decode : Decode Unit) (stream : List UInt8) :
    Run (SolidSink × World) EggError Unit := do
  ⟨fun p =>
    let r := (decode.run Prod.mk (SolidSink.sink os cfg)).run
      { rest := stream, crypto := (), out := p }
    (r.1, r.2.out)⟩
  SolidSink.finish os cfg

/-- Run on a new sink, which is kept. -/
def withSink (m : Run (SolidSink × World) EggError Unit) :
    Extract (Except EggError Unit × SolidSink) := ⟨fun w =>
  match (Run.attempt m : Run _ Empty _).run (.new, w) with
  | (.ok result, (s, w')) => (.ok (result, s), w')
  | (.err e, _) => nomatch e
  | (.panic, (_, w')) => (.panic, w')
  | (.hang, (_, w')) => (.hang, w')⟩

/-- What the sink of a failed stream has created is removed. -/
def discardCreated (s : SolidSink) : Extract Unit :=
  if pipeMode then return () else SolidSink.cleanup s

/-- The branch with data. -/
def extractStream (spans : Spans) : Extract Unit := do
  let allCompressed ← onReader archive (readBlocks crates entries password spans.blockReads .empty)
  let totalUncompressed := (spans.crcSpans.map Prod.fst).sum % 2 ^ 64
  let decode := decompressSolid crates (solidMethod entries) allCompressed.length totalUncompressed
  let cfg : SinkConfig := {
    fileSpans := spans.fileSpans
    crcSpans := spans.crcSpans
    entries
    destDir
    filter
    pipeMode }
  match ← withSink (decompressInto os cfg decode allCompressed) with
  | (.error e, s) =>
    discardCreated pipeMode s
    Run.throw e
  | (.ok _, _) => return ()

/-- An empty file of the branch without data. -/
def createEmpty (span : Nat × Nat) : Extract Unit :=
  match entries[span.1]? with
  | none => Run.panic
  | some entry =>
    if !shouldExtract entry filter then return ()
    else do
      let path ← Run.ofExcept (safeJoin destDir entry.fileName)
      createFile os path

/-- The branch without data: every regular entry must be empty. -/
def createEmptyFiles (spans : Spans) : Extract Unit :=
  if spans.fileSpans.any fun span => span.2 ≠ 0 then Run.throw .corruptedFile
  else Run.forEach (createEmpty os entries destDir filter) spans.fileSpans

/-- The modification time of an extracted entry. -/
def applyTime (entry : EggFileEntry) : Extract Unit :=
  if entry.isDirectory || !shouldExtract entry filter then return ()
  else
    match entry.fileTime with
    | none => return ()
    | some ft => do
      let path ← Run.ofExcept (safeJoin destDir entry.fileName)
      setFileTime path ft

/-- The two branches. -/
def extractSpans (spans : Spans) : Extract Unit :=
  if spans.blockReads ≠ [] then
    extractStream crates os archive entries destDir password pipeMode filter spans
  else if pipeMode then return ()
  else createEmptyFiles os entries destDir filter spans

def applyTimes : Extract Unit :=
  if pipeMode then return () else Run.forEach (applyTime destDir filter) entries

def extractAllSolid : Extract Unit := do
  let spans ← scanEntries os destDir pipeMode filter entries.zipIdx .empty
  extractSpans crates os archive entries destDir password pipeMode filter spans
  applyTimes entries destDir pipeMode filter

end Solid

/-! ## the entry points -/

section Main

variable (archive : EggArchive) (destDir : Path) (password : Option String) (pipeMode : Bool)

def extractAll : Extract Unit :=
  if archive.isSolid then
    extractAllSolid crates os archive archive.entries destDir password pipeMode none
  else
    Run.forEach (extractEntry crates os archive destDir password pipeMode) archive.entries

/-- The first asked-for name that no entry has. -/
def unmatched (files : List String) : Option String :=
  files.find? fun f => !archive.entries.any fun e => matchesFilter e.fileName f

/-- The entries that pass the filter. -/
def extractSelected (files : List String) : Extract Unit :=
  if archive.isSolid then
    extractAllSolid crates os archive archive.entries destDir password pipeMode (some files)
  else
    Run.forEach (fun entry =>
      if shouldExtract entry (some files) then
        extractEntry crates os archive destDir password pipeMode entry
      else return ()) archive.entries

def extractFiles (files : List String) : Extract Unit := do
  extractSelected crates os archive destDir password pipeMode files
  match unmatched archive files with
  | some name => Run.throw (.fileNotFound name)
  | none => return ()

end Main

end Unegg
