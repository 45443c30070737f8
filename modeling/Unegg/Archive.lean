import Unegg.Cursor
import Unegg.Encoding

/-!
# Unegg.Archive

The EGG container parser (`archive.rs`).

Layout of a stream, as the parser reads it:

* **header** — signature, version, header id, reserved word;
* **prefix** — fields up to an End Marker (`prefixStep`);
* **records** — file entries, comments and dummies, up to an End Marker that
  no further record follows (`recordStep`); a file entry is its sub-headers up
  to an End Marker (`subHeaderStep`) and then its blocks (`blockStep`), whose
  compressed data is skipped over.

The four loops are `Run.loop`s over a one-pass body.  Every pass reads a
signature, so no loop can make more passes than the stream has bytes; that is
the bound they run under (`passBound`).
-/

namespace Unegg

open Prog Bytes

/-! ## signatures and flags -/

def sigEggHeader : UInt32 := 0x41474745
def sigSplitInfo : UInt32 := 0x24F5A262
def sigSolidInfo : UInt32 := 0x24E5A060
def sigFileHeader : UInt32 := 0x0A8590E3
def sigFilename : UInt32 := 0x0A8591AC
def sigComment : UInt32 := 0x04C63672
def sigWindowsFileInfo : UInt32 := 0x2C86950B
def sigEncryptInfo : UInt32 := 0x08D1470F
def sigBlockHeader : UInt32 := 0x02B50C13
def sigDummy : UInt32 := 0x07463307
def sigEndMarker : UInt32 := 0x08E28222
def sigSkip : UInt32 := 0xFFFF0000
def sigGlobalEncrypt : UInt32 := 0x08D144A8
def sigPosixFileInfo : UInt32 := 0x1EE922E5

def attrDirectory : UInt8 := 0x80

def fnAreaCode : UInt8 := 0x08
def fnRelative : UInt8 := 0x10

def sIfmt : UInt32 := 0xF000
def sIfdir : UInt32 := 0x4000

/-- Seconds between the FILETIME epoch (1601) and the Unix epoch. -/
def filetimeEpochDiff : Nat := 11644473600

/-- Unix seconds to 100 ns FILETIME ticks, saturating at `u64::MAX`. -/
def unixToFiletime (unixSecs : UInt64) : UInt64 :=
  UInt64.ofNat (min (min (unixSecs.toNat + filetimeEpochDiff) (2 ^ 64 - 1) * 10000000) (2 ^ 64 - 1))

/-! ## data -/

inductive CompressionMethod where
  | store
  | deflate
  | bzip2
  | azo
  | lzma
  | unknown (n : UInt8)
  deriving Repr, DecidableEq

def CompressionMethod.fromByte (b : UInt8) : CompressionMethod :=
  if b = 0 then .store
  else if b = 1 then .deflate
  else if b = 2 then .bzip2
  else if b = 3 then .azo
  else if b = 4 then .lzma
  else .unknown b

inductive EncryptionMethod where
  | zipCrypto
  | aes128
  | aes256
  | lea128
  | lea256
  | unknown (n : UInt8)
  deriving Repr, DecidableEq

def EncryptionMethod.fromByte (b : UInt8) : EncryptionMethod :=
  if b = 0 then .zipCrypto
  else if b = 1 then .aes128
  else if b = 2 then .aes256
  else if b = 5 then .lea128
  else if b = 6 then .lea256
  else .unknown b

/-- Byte lengths the crypto payload can take, longest first. -/
def EncryptionMethod.payloadLengths : EncryptionMethod → List Nat
  | .zipCrypto => [16]
  | .aes128 | .lea128 => [20, 10]
  | .aes256 | .lea256 => [28, 18]
  | .unknown _ => []

structure EncryptInfo where
  method : EncryptionMethod
  data : List UInt8
  deriving Repr, DecidableEq

structure EggBlock where
  compressionMethod : CompressionMethod
  uncompressedSize : UInt32
  compressedSize : UInt32
  crc32 : UInt32
  dataPos : Nat
  deriving Repr, DecidableEq

/-- The stream position right after the block's data. -/
def EggBlock.dataEnd (b : EggBlock) : Nat := b.dataPos + b.compressedSize.toNat

structure EggFileEntry where
  fileName : String
  fileId : UInt32
  uncompressedSize : UInt64
  blocks : List EggBlock
  encryptInfo : Option EncryptInfo
  fileTime : Option UInt64
  fileAttr : UInt8
  parentId : Option UInt32
  deriving Repr, DecidableEq

def EggFileEntry.isDirectory (e : EggFileEntry) : Bool := e.fileAttr &&& attrDirectory ≠ 0

structure SplitInfo where
  prevId : UInt32
  nextId : UInt32
  deriving Repr, DecidableEq

structure EggArchive where
  reader : Cursor
  entries : List EggFileEntry
  isEncrypted : Bool
  isSolid : Bool
  headerId : UInt32
  splitInfo : Option SplitInfo
  deriving Repr, DecidableEq

/-! ## fields -/

/-- A bound on the passes of any loop over the stream: one more than its bytes. -/
def passBound : Parser Nat := ⟨fun c => (.ok (c.data.length + 1), c)⟩

/-- The extra field prefix: a flags byte and a size, of four bytes when bit 0
of the flags is set and of two otherwise. -/
def readExtraField : Parser (UInt8 × UInt32) := do
  let flags ← readU8
  if flags &&& 0x01 ≠ 0 then
    let size ← readU32
    return (flags, size)
  else
    let size ← readU16
    return (flags, size.toUInt32)

/-- A field whose declared bytes are passed over. -/
def skipField : Parser Unit := do
  let (_flags, size) ← readExtraField
  skip size.toNat

/-- Whether an End Marker stands `len` bytes after `start`; leaves the reader
at `start`. -/
def landsOnEndMarker (start len : Nat) : Parser Bool := do
  seekStart (start + len)
  let sig ← Run.attempt readU32
  seekStart start
  return match sig with
    | .ok sig => sig = sigEndMarker
    | .error _ => false

/-- The first of the candidate lengths that lands on an End Marker. -/
def findLanding (start : Nat) : List Nat → Parser (Option Nat)
  | [] => return none
  | len :: lens => do
    if ← landsOnEndMarker start len then return some len else findLanding start lens

/-- An encryption sub-header's crypto payload.  The declared length is taken
when it is valid for the method and lands on an End Marker; otherwise the
first valid length that does; otherwise the declared length after all. -/
def readEncryptPayload (method : EncryptionMethod) (declared : Nat) : Parser (List UInt8) := do
  let start ← streamPosition
  let candidates := method.payloadLengths
  let trusted ← (if candidates.contains declared then landsOnEndMarker start declared
    else pure false : Parser Bool)
  if trusted then readExactCapped declared
  else
    match ← findLanding start candidates with
    | some len => readExactCapped len
    | none => readExactCapped declared

/-! ### what the payload reader decides

The probes leave no trace on the reader, so the payload reader is a plain
`readExactCapped` of a length that depends on the stream alone. -/

/-- The four bytes at offset `p` are those of an End Marker. -/
def endMarkerAt (bytes : List UInt8) (p : Nat) : Bool :=
  (bytes.drop p).take 4 = le32 sigEndMarker

/-- The length `readEncryptPayload` settles on in front of `rest`. -/
def payloadLength (rest : List UInt8) (method : EncryptionMethod) (declared : Nat) : Nat :=
  if method.payloadLengths.contains declared && endMarkerAt rest declared then declared
  else (method.payloadLengths.find? (endMarkerAt rest)).getD declared

theorem landsOnEndMarker_run (start len : Nat) (c : Cursor) :
    (landsOnEndMarker start len).run c =
      (.ok (endMarkerAt (c.data.drop start) len), { c with pos := start }) := by
  let c₁ : Cursor := { c with pos := start + len }
  have hrest : c₁.rest = (c.data.drop start).drop len := List.drop_drop.symm
  have hseek : (seekStart (start + len)).run c = (.ok (), c₁) := rfl
  rw [landsOnEndMarker, Run.bind_of_ok hseek]
  by_cases h : 4 ≤ c₁.rest.length
  · have hread := readU32_run c₁
    rw [if_pos h] at hread
    rw [Run.bind_of_ok (Run.attempt_of_ok hread)]
    have hlen : (c₁.rest.take 4).length = 4 := by rw [List.length_take]; omega
    have hiff : UInt32.ofNat (ofLE (c₁.rest.take 4)) = sigEndMarker ↔
        c₁.rest.take 4 = le32 sigEndMarker := by
      rw [← le32_injective.eq_iff, le32_ofLE hlen]
    rw [endMarkerAt, ← hrest, ← decide_eq_decide.mpr hiff]
    rfl
  · have hread := readU32_run c₁
    rw [if_neg h] at hread
    rw [Run.bind_of_ok (Run.attempt_of_err hread)]
    have hne : endMarkerAt (c.data.drop start) len = false := by
      rw [endMarkerAt, ← hrest, decide_eq_false_iff_not]
      intro heq
      have := congrArg List.length heq
      rw [List.length_take, length_le32] at this
      omega
    rw [hne]
    rfl

theorem findLanding_run (lens : List Nat) (c : Cursor) :
    (findLanding c.pos lens).run c =
      (.ok (lens.find? (endMarkerAt c.rest)), c) := by
  induction lens with
  | nil => rfl
  | cons len lens ih =>
      rw [findLanding, Run.bind_of_ok (landsOnEndMarker_run c.pos len c), List.find?_cons,
        Cursor.rest]
      cases endMarkerAt (c.data.drop c.pos) len with
      | true => rfl
      | false => exact ih

theorem readEncryptPayload_run (method : EncryptionMethod) (declared : Nat) (c : Cursor) :
    (readEncryptPayload method declared).run c =
      (readExactCapped (payloadLength c.rest method declared)).run c := by
  have hpos : streamPosition.run c = (.ok c.pos, c) := rfl
  have htrust : (if method.payloadLengths.contains declared then landsOnEndMarker c.pos declared
      else pure false).run c = (.ok (method.payloadLengths.contains declared &&
        endMarkerAt c.rest declared), c) := by
    cases method.payloadLengths.contains declared with
    | true => exact landsOnEndMarker_run c.pos declared c
    | false => rfl
  rw [readEncryptPayload, Run.bind_of_ok hpos, Run.bind_of_ok htrust, payloadLength]
  cases method.payloadLengths.contains declared && endMarkerAt c.rest declared with
  | true => rfl
  | false =>
      simp only [Bool.false_eq_true, if_false]
      rw [Run.bind_of_ok (findLanding_run method.payloadLengths c)]
      cases method.payloadLengths.find? (endMarkerAt c.rest) <;> rfl

/-! ## blocks -/

def parseBlock : Parser EggBlock := do
  let methodByte ← readU8
  let _hint ← readU8
  let uncompressedSize ← readU32
  let compressedSize ← readU32
  let crc32 ← readU32
  let endSig ← readU32
  if endSig ≠ sigEndMarker then Run.throw .corruptedFile
  else
    let dataPos ← streamPosition
    skip compressedSize.toNat
    return {
      compressionMethod := .fromByte methodByte
      uncompressedSize
      compressedSize
      crc32
      dataPos }

/-- One pass of the block loop.  A signature of the record level is un-read. -/
def blockStep (blocks : List EggBlock) : Parser (Flow (List EggBlock) (List EggBlock)) := do
  let sig ← readU32
  if sig = sigBlockHeader then
    let block ← parseBlock
    return .next (blocks ++ [block])
  else if sig = sigComment ∨ sig = sigFileHeader ∨ sig = sigEndMarker ∨ sig = sigDummy then
    seekCurrent (-4)
    return .done blocks
  else Run.throw .corruptedFile

def parseBlocks : Parser (List EggBlock) := do
  let bound ← passBound
  Run.loop blockStep bound []

/-! ## file entries -/

section Entries

variable (pages : CodePages)

/-- What the sub-headers of an entry have set so far, with the archive's
encryption flag. -/
structure FileHeaders where
  fileName : String := ""
  fileTime : Option UInt64 := none
  fileAttr : UInt8 := 0
  encryptInfo : Option EncryptInfo := none
  parentId : Option UInt32 := none
  isEncrypted : Bool
  deriving Repr, DecidableEq

/-- `checked_sub(k).ok_or(CorruptedFile)`. -/
def checkedSub (n k : Nat) : Parser Nat :=
  if n < k then Run.throw .corruptedFile else pure (n - k)

/-- The area code of a name, with the bytes of the field left after it. -/
def readAreaCode (flags : UInt8) (remaining : Nat) : Parser (Option UInt16 × Nat) := do
  if flags &&& fnAreaCode ≠ 0 then
    let lc ← readU16
    let remaining ← checkedSub remaining 2
    return (some lc, remaining)
  else return (none, remaining)

/-- The parent id of a relative name, with the bytes of the field left after it. -/
def readParentId (flags : UInt8) (old : Option UInt32) (remaining : Nat) :
    Parser (Option UInt32 × Nat) := do
  if flags &&& fnRelative ≠ 0 then
    let pid ← readU32
    let remaining ← checkedSub remaining 4
    return (some pid, remaining)
  else return (old, remaining)

def parseFilename (h : FileHeaders) : Parser FileHeaders := do
  let (flags, size) ← readExtraField
  let (localeCode, remaining) ← readAreaCode flags size.toNat
  let (parentId, remaining) ← readParentId flags h.parentId remaining
  let nameBuf ← readExactCapped remaining
  let decoded := decodeFilename pages (flags &&& fnAreaCode ≠ 0) localeCode nameBuf
  return { h with fileName := normalizePath decoded, parentId }

/-- Time and attributes; the attributes are OR-ed in. -/
def parseWindowsFileInfo (h : FileHeaders) : Parser FileHeaders := do
  let (_flags, size) ← readExtraField
  if size.toNat < 9 then Run.throw .corruptedFile
  else
    let time ← readU64
    let attr ← readU8
    skip (size.toNat - 9)
    return { h with fileTime := some time, fileAttr := h.fileAttr ||| attr }

/-- Mode, owner, group and time; the time is taken only when none is set yet. -/
def parsePosixFileInfo (h : FileHeaders) : Parser FileHeaders := do
  let (_flags, size) ← readExtraField
  if size.toNat < 20 then Run.throw .corruptedFile
  else
    let mode ← readU32
    let _uid ← readU32
    let _gid ← readU32
    let mtime ← readU64
    skip (size.toNat - 20)
    return { h with
      fileAttr := if mode &&& sIfmt = sIfdir then h.fileAttr ||| attrDirectory else h.fileAttr
      fileTime := if h.fileTime.isNone then some (unixToFiletime mtime) else h.fileTime }

def parseEncryptInfo (h : FileHeaders) : Parser FileHeaders := do
  let (_flags, size) ← readExtraField
  if size = 0 then Run.throw .corruptedFile
  else
    let methodByte ← readU8
    match EncryptionMethod.fromByte methodByte with
    | .unknown n => Run.throw (.unsupportedEncryption n)
    | method =>
      let data ← readEncryptPayload method (size.toNat - 1)
      return { h with encryptInfo := some ⟨method, data⟩, isEncrypted := true }

/-- One pass of the sub-header loop. -/
def subHeaderStep (h : FileHeaders) : Parser (Flow FileHeaders FileHeaders) := do
  let sig ← readU32
  if sig = sigFilename then return .next (← parseFilename pages h)
  else if sig = sigComment then
    skipField
    return .next h
  else if sig = sigWindowsFileInfo then return .next (← parseWindowsFileInfo h)
  else if sig = sigPosixFileInfo then return .next (← parsePosixFileInfo h)
  else if sig = sigEncryptInfo then return .next (← parseEncryptInfo h)
  else if sig = sigEndMarker then return .done h
  else Run.throw .corruptedFile

def parseSubHeaders (isEncrypted : Bool) : Parser FileHeaders := do
  let bound ← passBound
  Run.loop (subHeaderStep pages) bound { isEncrypted }

/-- A file entry, after its signature; returns the archive's encryption flag
along with it. -/
def parseFileEntry (isEncrypted : Bool) : Parser (EggFileEntry × Bool) := do
  let fileId ← readU32
  let uncompressedSize ← readU64
  let h ← parseSubHeaders pages isEncrypted
  let blocks ← parseBlocks
  return ({
    fileName := h.fileName
    fileId
    uncompressedSize
    blocks
    encryptInfo := h.encryptInfo
    fileTime := h.fileTime
    fileAttr := h.fileAttr
    parentId := h.parentId }, h.isEncrypted)

/-! ## relative paths -/

/-- `trim_end_matches('/')`. -/
def trimEndSlashes (s : String) : String := String.ofList (s.toList.rdropWhile (· = '/'))

/-- The index a file id stands for: the last entry that carries it. -/
def indexById (entries : List EggFileEntry) (id : UInt32) : Option Nat :=
  ((entries.zipIdx.filter fun p => p.1.fileId = id).getLast?).map Prod.snd

/-- The name of entry `i` with its parent's path in front, when its parent is
another entry with a usable name. -/
def resolvedName (entries : List EggFileEntry) (e : EggFileEntry) (i : Nat) : Option String := do
  let pid ← e.parentId
  let pi ← indexById entries pid
  if pi = i then none
  else
    let parent ← entries[pi]?
    let dir := trimEndSlashes parent.fileName
    if dir.isEmpty then none else some (dir ++ "/" ++ e.fileName)

/-- Prepend the parents' paths; all names are taken before any is replaced. -/
def resolveRelativePaths (entries : List EggFileEntry) : List EggFileEntry :=
  entries.zipIdx.map fun (e, i) =>
    match resolvedName entries e i with
    | some name => { e with fileName := name }
    | none => e

/-! ## the archive -/

/-- What the prefix fields have set so far. -/
structure Prefix where
  isSolid : Bool := false
  splitInfo : Option SplitInfo := none
  deriving Repr, DecidableEq

/-- The two volume ids; a size beyond them is passed over. -/
def parseSplitInfo (p : Prefix) : Parser Prefix := do
  let (_flags, size) ← readExtraField
  let prevId ← readU32
  let nextId ← readU32
  skip (size.toNat - 8)
  return { p with splitInfo := some ⟨prevId, nextId⟩ }

/-- One pass of the prefix loop. -/
def prefixStep (p : Prefix) : Parser (Flow Prefix Prefix) := do
  let sig ← readU32
  if sig = sigSplitInfo then return .next (← parseSplitInfo p)
  else if sig = sigSolidInfo then
    skipField
    return .next { p with isSolid := true }
  else if sig = sigSkip then
    skipField
    return .next p
  else if sig = sigGlobalEncrypt then
    skipField
    return .next p
  else if sig = sigEndMarker then return .done p
  else Run.throw .corruptedFile

/-- The entries read so far, with the archive's encryption flag. -/
structure Records where
  entries : List EggFileEntry := []
  isEncrypted : Bool := false
  deriving Repr, DecidableEq

/-- After an End Marker: a volume boundary when a record follows, and the end
of the archive otherwise.  The signature looked at is un-read. -/
def peekRecord (rs : Records) : Parser (Flow Records Records) := do
  match ← Run.attempt readU32 with
  | .ok next =>
    seekCurrent (-4)
    if next = sigFileHeader ∨ next = sigComment ∨ next = sigDummy then return .next rs
    else return .done rs
  | .error _ => return .done rs

/-- One pass of the record loop. -/
def recordStep (rs : Records) : Parser (Flow Records Records) := do
  let sig ← readU32
  if sig = sigFileHeader then
    let (entry, isEncrypted) ← parseFileEntry pages rs.isEncrypted
    return .next { entries := rs.entries ++ [entry], isEncrypted }
  else if sig = sigComment then
    skipField
    return .next rs
  else if sig = sigDummy then
    skipField
    return .next rs
  else if sig = sigEndMarker then peekRecord rs
  else Run.throw .corruptedFile

/-- `EggArchive::open`. -/
def EggArchive.open' : Parser EggArchive := do
  let sig ← readU32
  if sig ≠ sigEggHeader then Run.throw .notEggFile
  else
    let _version ← readU16
    let headerId ← readU32
    let _reserved ← readU32
    let bound ← passBound
    let p ← Run.loop prefixStep bound {}
    let rs ← Run.loop (recordStep pages) bound {}
    let reader ← Run.get
    return {
      reader
      entries := resolveRelativePaths rs.entries
      isEncrypted := rs.isEncrypted
      isSolid := p.isSolid
      headerId
      splitInfo := p.splitInfo }

end Entries

end Unegg
