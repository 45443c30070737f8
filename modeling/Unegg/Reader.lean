import Unegg.Archive

/-!
# Unegg.Reader

`EggArchive::open` over any reader (`impl Read + Seek`).

`Reader` lists the calls the parser makes of its reader; `Reader.openArchive` is
the parser in terms of them.  A `Cursor` is a reader, and on it this parser is
the one of `Unegg.Archive` (`openArchive_cursor`).
-/

namespace Unegg

open Prog Bytes

/-- `Read + Seek`, as the parser uses it. -/
class Reader (ρ : Type) where
  /-- `read_exact` of a buffer. -/
  readExact : Nat → Run ρ EggError (List UInt8)
  /-- `take(n).read_to_end`. -/
  readUpTo : Nat → Run ρ EggError (List UInt8)
  /-- `stream_position`. -/
  streamPosition : Run ρ EggError Nat
  /-- `seek(SeekFrom::Start(p))`. -/
  seekStart : Nat → Run ρ EggError Unit
  /-- `seek(SeekFrom::Current(k))`. -/
  seekCurrent : Int → Run ρ EggError Unit
  /-- A bound on the passes of any loop over the stream. -/
  passBound : Run ρ EggError Nat

instance : Reader Cursor where
  readExact := readExact
  readUpTo := readUpTo
  streamPosition := streamPosition
  seekStart := seekStart
  seekCurrent := seekCurrent
  passBound := passBound

namespace Reader

variable {ρ : Type} [Reader ρ]

/-- A computation that reads an archive from `ρ`. -/
abbrev Parse (ρ : Type) := Run ρ EggError

/-! ## reading -/

def readU8 : Parse ρ UInt8 := do
  let buf ← readExact 1
  return UInt8.ofNat (ofLE buf)

def readU16 : Parse ρ UInt16 := do
  let buf ← readExact 2
  return UInt16.ofNat (ofLE buf)

def readU32 : Parse ρ UInt32 := do
  let buf ← readExact 4
  return UInt32.ofNat (ofLE buf)

def readU64 : Parse ρ UInt64 := do
  let buf ← readExact 8
  return UInt64.ofNat (ofLE buf)

def readExactCapped (n : Nat) : Parse ρ (List UInt8) := do
  let buf ← readUpTo n
  if buf.length ≠ n then Run.throw .corruptedFile else return buf

def skip (n : Nat) : Parse ρ Unit := seekCurrent n

def readExtraField : Parse ρ (UInt8 × UInt32) := do
  let flags ← readU8
  if flags &&& 0x01 ≠ 0 then
    let size ← readU32
    return (flags, size)
  else
    let size ← readU16
    return (flags, size.toUInt32)

def skipField : Parse ρ Unit := do
  let (_flags, size) ← readExtraField
  skip size.toNat

def landsOnEndMarker (start len : Nat) : Parse ρ Bool := do
  seekStart (start + len)
  let sig ← Run.attempt readU32
  seekStart start
  return match sig with
    | .ok sig => sig = sigEndMarker
    | .error _ => false

def findLanding (start : Nat) : List Nat → Parse ρ (Option Nat)
  | [] => return none
  | len :: lens => do
    if ← landsOnEndMarker start len then return some len else findLanding start lens

def readEncryptPayload (method : EncryptionMethod) (declared : Nat) : Parse ρ (List UInt8) := do
  let start ← streamPosition
  let candidates := method.payloadLengths
  let trusted ← (if candidates.contains declared then landsOnEndMarker start declared
    else pure false : Parse ρ Bool)
  if trusted then readExactCapped declared
  else
    match ← findLanding start candidates with
    | some len => readExactCapped len
    | none => readExactCapped declared

/-! ## blocks -/

def parseBlock : Parse ρ EggBlock := do
  let methodByte ← readU8
  let _hint ← readU8
  let uncompressedSize ← readU32
  let compressedSize ← readU32
  let crc32 ← readU32
  let endSig ← readU32
  if endSig ≠ sigEndMarker then Run.throw .corruptedFile
  else
    let dataPos ← streamPosition
    skip compressedSize.toNat
    return {
      compressionMethod := .fromByte methodByte
      uncompressedSize
      compressedSize
      crc32
      dataPos }

def blockStep (blocks : List EggBlock) : Parse ρ (Flow (List EggBlock) (List EggBlock)) := do
  let sig ← readU32
  if sig = sigBlockHeader then
    let block ← parseBlock
    return .next (blocks ++ [block])
  else if sig = sigComment ∨ sig = sigFileHeader ∨ sig = sigEndMarker ∨ sig = sigDummy then
    seekCurrent (-4)
    return .done blocks
  else Run.throw .corruptedFile

def parseBlocks : Parse ρ (List EggBlock) := do
  let bound ← passBound
  Run.loop blockStep bound []

/-! ## file entries -/

section Entries

variable (pages : CodePages)

def checkedSub (n k : Nat) : Parse ρ Nat :=
  if n < k then Run.throw .corruptedFile else pure (n - k)

def readAreaCode (flags : UInt8) (remaining : Nat) : Parse ρ (Option UInt16 × Nat) := do
  if flags &&& fnAreaCode ≠ 0 then
    let lc ← readU16
    let remaining ← checkedSub remaining 2
    return (some lc, remaining)
  else return (none, remaining)

def readParentId (flags : UInt8) (old : Option UInt32) (remaining : Nat) :
    Parse ρ (Option UInt32 × Nat) := do
  if flags &&& fnRelative ≠ 0 then
    let pid ← readU32
    let remaining ← checkedSub remaining 4
    return (some pid, remaining)
  else return (old, remaining)

def parseFilename (h : FileHeaders) : Parse ρ FileHeaders := do
  let (flags, size) ← readExtraField
  let (localeCode, remaining) ← readAreaCode flags size.toNat
  let (parentId, remaining) ← readParentId flags h.parentId remaining
  let nameBuf ← readExactCapped remaining
  let decoded := decodeFilename pages (flags &&& fnAreaCode ≠ 0) localeCode nameBuf
  return { h with fileName := normalizePath decoded, parentId }

def parseWindowsFileInfo (h : FileHeaders) : Parse ρ FileHeaders := do
  let (_flags, size) ← readExtraField
  if size.toNat < 9 then Run.throw .corruptedFile
  else
    let time ← readU64
    let attr ← readU8
    skip (size.toNat - 9)
    return { h with fileTime := some time, fileAttr := h.fileAttr ||| attr }

def parsePosixFileInfo (h : FileHeaders) : Parse ρ FileHeaders := do
  let (_flags, size) ← readExtraField
  if size.toNat < 20 then Run.throw .corruptedFile
  else
    let mode ← readU32
    let _uid ← readU32
    let _gid ← readU32
    let mtime ← readU64
    skip (size.toNat - 20)
    return { h with
      fileAttr := if mode &&& sIfmt = sIfdir then h.fileAttr ||| attrDirectory else h.fileAttr
      fileTime := if h.fileTime.isNone then some (unixToFiletime mtime) else h.fileTime }

def parseEncryptInfo (h : FileHeaders) : Parse ρ FileHeaders := do
  let (_flags, size) ← readExtraField
  if size = 0 then Run.throw .corruptedFile
  else
    let methodByte ← readU8
    match EncryptionMethod.fromByte methodByte with
    | .unknown n => Run.throw (.unsupportedEncryption n)
    | method =>
      let data ← readEncryptPayload method (size.toNat - 1)
      return { h with encryptInfo := some ⟨method, data⟩, isEncrypted := true }

def subHeaderStep (h : FileHeaders) : Parse ρ (Flow FileHeaders FileHeaders) := do
  let sig ← readU32
  if sig = sigFilename then return .next (← parseFilename pages h)
  else if sig = sigComment then
    skipField
    return .next h
  else if sig = sigWindowsFileInfo then return .next (← parseWindowsFileInfo h)
  else if sig = sigPosixFileInfo then return .next (← parsePosixFileInfo h)
  else if sig = sigEncryptInfo then return .next (← parseEncryptInfo h)
  else if sig = sigEndMarker then return .done h
  else Run.throw .corruptedFile

def parseSubHeaders (isEncrypted : Bool) : Parse ρ FileHeaders := do
  let bound ← passBound
  Run.loop (subHeaderStep pages) bound { isEncrypted }

def parseFileEntry (isEncrypted : Bool) : Parse ρ (EggFileEntry × Bool) := do
  let fileId ← readU32
  let uncompressedSize ← readU64
  let h ← parseSubHeaders pages isEncrypted
  let blocks ← parseBlocks
  return ({
    fileName := h.fileName
    fileId
    uncompressedSize
    blocks
    encryptInfo := h.encryptInfo
    fileTime := h.fileTime
    fileAttr := h.fileAttr
    parentId := h.parentId }, h.isEncrypted)

/-! ## the archive -/

def parseSplitInfo (p : Prefix) : Parse ρ Prefix := do
  let (_flags, size) ← readExtraField
  let prevId ← readU32
  let nextId ← readU32
  skip (size.toNat - 8)
  return { p with splitInfo := some ⟨prevId, nextId⟩ }

def prefixStep (p : Prefix) : Parse ρ (Flow Prefix Prefix) := do
  let sig ← readU32
  if sig = sigSplitInfo then return .next (← parseSplitInfo p)
  else if sig = sigSolidInfo then
    skipField
    return .next { p with isSolid := true }
  else if sig = sigSkip then
    skipField
    return .next p
  else if sig = sigGlobalEncrypt then
    skipField
    return .next p
  else if sig = sigEndMarker then return .done p
  else Run.throw .corruptedFile

def peekRecord (rs : Records) : Parse ρ (Flow Records Records) := do
  match ← Run.attempt readU32 with
  | .ok next =>
    seekCurrent (-4)
    if next = sigFileHeader ∨ next = sigComment ∨ next = sigDummy then return .next rs
    else return .done rs
  | .error _ => return .done rs

def recordStep (rs : Records) : Parse ρ (Flow Records Records) := do
  let sig ← readU32
  if sig = sigFileHeader then
    let (entry, isEncrypted) ← parseFileEntry pages rs.isEncrypted
    return .next { entries := rs.entries ++ [entry], isEncrypted }
  else if sig = sigComment then
    skipField
    return .next rs
  else if sig = sigDummy then
    skipField
    return .next rs
  else if sig = sigEndMarker then peekRecord rs
  else Run.throw .corruptedFile

/-- An `EggArchive<R>` but for its reader, which is the state that is left. -/
structure Opened where
  entries : List EggFileEntry
  isEncrypted : Bool
  isSolid : Bool
  headerId : UInt32
  splitInfo : Option SplitInfo
  deriving Repr, DecidableEq

/-- The archive with a reader. -/
def Opened.archive (o : Opened) (reader : Cursor) : EggArchive where
  reader
  entries := o.entries
  isEncrypted := o.isEncrypted
  isSolid := o.isSolid
  headerId := o.headerId
  splitInfo := o.splitInfo

/-- `EggArchive::<R>::open`. -/
def openArchive : Parse ρ Opened := do
  let sig ← readU32
  if sig ≠ sigEggHeader then Run.throw .notEggFile
  else
    let _version ← readU16
    let headerId ← readU32
    let _reserved ← readU32
    let bound ← passBound
    let p ← Run.loop prefixStep bound {}
    let rs ← Run.loop (recordStep pages) bound {}
    return {
      entries := resolveRelativePaths rs.entries
      isEncrypted := rs.isEncrypted
      isSolid := p.isSolid
      headerId
      splitInfo := p.splitInfo }

end Entries

/-! ## on a cursor -/

section Cursor

variable {pages : CodePages}

theorem findLanding_cursor (start : Nat) (lens : List Nat) :
    (findLanding start lens : Parse Cursor _) = Unegg.findLanding start lens := by
  induction lens with
  | nil => rfl
  | cons len lens ih =>
      rw [findLanding, Unegg.findLanding, ih]
      rfl

theorem readEncryptPayload_cursor (method : EncryptionMethod) (declared : Nat) :
    (readEncryptPayload method declared : Parse Cursor _) =
      Unegg.readEncryptPayload method declared := by
  simp only [readEncryptPayload, Unegg.readEncryptPayload, findLanding_cursor]
  rfl

theorem parseEncryptInfo_cursor (h : FileHeaders) :
    (parseEncryptInfo h : Parse Cursor _) = Unegg.parseEncryptInfo h := by
  simp only [parseEncryptInfo, Unegg.parseEncryptInfo, readEncryptPayload_cursor]
  rfl

theorem subHeaderStep_cursor (h : FileHeaders) :
    (subHeaderStep pages h : Parse Cursor _) = Unegg.subHeaderStep pages h := by
  simp only [subHeaderStep, Unegg.subHeaderStep, parseEncryptInfo_cursor]
  rfl

theorem parseFileEntry_cursor (isEncrypted : Bool) :
    (parseFileEntry pages isEncrypted : Parse Cursor _) =
      Unegg.parseFileEntry pages isEncrypted := by
  have hstep : (subHeaderStep pages : _ → Parse Cursor _) = Unegg.subHeaderStep pages :=
    funext subHeaderStep_cursor
  simp only [parseFileEntry, Unegg.parseFileEntry, parseSubHeaders, Unegg.parseSubHeaders, hstep]
  rfl

theorem recordStep_cursor (rs : Records) :
    (recordStep pages rs : Parse Cursor _) = Unegg.recordStep pages rs := by
  simp only [recordStep, Unegg.recordStep, parseFileEntry_cursor]
  rfl

/-- **On a cursor** it is the parser of `Unegg.Archive`. -/
theorem openArchive_cursor (pages : CodePages) :
    EggArchive.open' pages = (openArchive pages : Parse Cursor Opened) >>= fun o => do
      let reader ← Run.get
      return o.archive reader := by
  have hstep : (recordStep pages : _ → Parse Cursor _) = Unegg.recordStep pages :=
    funext recordStep_cursor
  rw [EggArchive.open', openArchive, bind_assoc, hstep]
  refine congrArg _ (funext fun sig => ?_)
  split
  · rfl
  · simp only [bind_assoc, pure_bind]
    rfl

end Cursor

end Reader

end Unegg
