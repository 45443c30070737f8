import Unegg.Archive

/-!
# Unegg.Archive.Wire

The byte layout of the records the parser reads, as the archive writers of the
test suite lay them out: every record is a structure that carries the bound
its size field puts on it, with its bytes (`bytes`) and what reading them
does (`apply`, `block`).

A size field is two or four bytes wide, as bit 0 of its flags byte says
(`extraField`); a record may declare more bytes than its fixed part, and the
surplus is padding.
-/

namespace Unegg

open Prog Bytes

/-! ## size fields -/

/-- `n` fits the size field that `flags` selects. -/
def FitsField (flags : UInt8) (n : Nat) : Prop :=
  n < if flags &&& 0x01 ≠ 0 then 2 ^ 32 else 2 ^ 16

instance (flags : UInt8) (n : Nat) : Decidable (FitsField flags n) :=
  inferInstanceAs (Decidable (_ < _))

theorem FitsField.lt {flags : UInt8} {n : Nat} (h : FitsField flags n) : n < 2 ^ 32 := by
  unfold FitsField at h
  split at h <;> omega

/-- The flags byte and the size. -/
def extraField (flags : UInt8) (n : Nat) : List UInt8 :=
  flags :: (if flags &&& 0x01 ≠ 0 then toLE 4 n else toLE 2 n)

/-- A field that is passed over: any bytes. -/
structure Field where
  flags : UInt8
  body : List UInt8
  fits : FitsField flags body.length

def Field.bytes (f : Field) : List UInt8 := extraField f.flags f.body.length ++ f.body

/-! ## sub-headers -/

/-- A name, with the area code and the parent id its flags announce. -/
structure FilenameField where
  flags : UInt8
  areaCode : UInt16
  parentId : UInt32
  name : List UInt8
  fits : FitsField flags
    ((if flags &&& fnAreaCode ≠ 0 then 2 else 0) +
      (if flags &&& fnRelative ≠ 0 then 4 else 0) + name.length)

namespace FilenameField

def hasAreaCode (f : FilenameField) : Prop := f.flags &&& fnAreaCode ≠ 0

def isRelative (f : FilenameField) : Prop := f.flags &&& fnRelative ≠ 0

instance (f : FilenameField) : Decidable f.hasAreaCode := inferInstanceAs (Decidable (_ ≠ _))

instance (f : FilenameField) : Decidable f.isRelative := inferInstanceAs (Decidable (_ ≠ _))

def size (f : FilenameField) : Nat :=
  (if f.hasAreaCode then 2 else 0) + (if f.isRelative then 4 else 0) + f.name.length

def bytes (f : FilenameField) : List UInt8 :=
  extraField f.flags f.size ++ ((if f.hasAreaCode then le16 f.areaCode else []) ++
    ((if f.isRelative then le32 f.parentId else []) ++ f.name))

/-- The name it sets. -/
def fileName (pages : CodePages) (f : FilenameField) : String :=
  normalizePath (decodeFilename pages f.hasAreaCode
    (if f.hasAreaCode then some f.areaCode else none) f.name)

/-- The parent id it sets, over the one set before. -/
def parent (f : FilenameField) (old : Option UInt32) : Option UInt32 :=
  if f.isRelative then some f.parentId else old

end FilenameField

/-- Time and attributes of a Windows file info, with padding. -/
structure WindowsField where
  flags : UInt8
  time : UInt64
  attr : UInt8
  pad : List UInt8
  fits : FitsField flags (9 + pad.length)

def WindowsField.bytes (f : WindowsField) : List UInt8 :=
  extraField f.flags (9 + f.pad.length) ++ (le64 f.time ++ (f.attr :: f.pad))

/-- Mode, owner, group and time of a POSIX file info, with padding. -/
structure PosixField where
  flags : UInt8
  mode : UInt32
  uid : UInt32
  gid : UInt32
  mtime : UInt64
  pad : List UInt8
  fits : FitsField flags (20 + pad.length)

namespace PosixField

def bytes (f : PosixField) : List UInt8 :=
  extraField f.flags (20 + f.pad.length) ++
    (le32 f.mode ++ (le32 f.uid ++ (le32 f.gid ++ (le64 f.mtime ++ f.pad))))

/-- The attribute bits it sets. -/
def attr (f : PosixField) : UInt8 := if f.mode &&& sIfmt = sIfdir then attrDirectory else 0

end PosixField

/-- The sub-headers of a file entry other than the encryption info, whose
reading depends on what stands around it. -/
inductive SubHeader where
  | filename (f : FilenameField)
  | comment (f : Field)
  | windows (f : WindowsField)
  | posix (f : PosixField)

namespace SubHeader

def bytes : SubHeader → List UInt8
  | filename f => le32 sigFilename ++ f.bytes
  | comment f => le32 sigComment ++ f.bytes
  | windows f => le32 sigWindowsFileInfo ++ f.bytes
  | posix f => le32 sigPosixFileInfo ++ f.bytes

/-- What reading it changes. -/
def apply (pages : CodePages) (h : FileHeaders) : SubHeader → FileHeaders
  | filename f => { h with fileName := f.fileName pages, parentId := f.parent h.parentId }
  | comment _ => h
  | windows f => { h with fileTime := some f.time, fileAttr := h.fileAttr ||| f.attr }
  | posix f => { h with
      fileAttr := h.fileAttr ||| f.attr
      fileTime := h.fileTime.or (some (unixToFiletime f.mtime)) }

def filename? : SubHeader → Option FilenameField
  | filename f => some f
  | _ => none

def windows? : SubHeader → Option WindowsField
  | windows f => some f
  | _ => none

def posix? : SubHeader → Option PosixField
  | posix f => some f
  | _ => none

end SubHeader

/-- An encryption info whose payload has a length valid for its method and
whose declared size says so. -/
structure EncryptField where
  flags : UInt8
  methodByte : UInt8
  payload : List UInt8
  valid : payload.length ∈ (EncryptionMethod.fromByte methodByte).payloadLengths
  fits : FitsField flags (1 + payload.length)

namespace EncryptField

def method (f : EncryptField) : EncryptionMethod := .fromByte f.methodByte

def info (f : EncryptField) : EncryptInfo := ⟨f.method, f.payload⟩

/-- The bytes before the payload. -/
def head (f : EncryptField) : List UInt8 :=
  le32 sigEncryptInfo ++ (extraField f.flags (1 + f.payload.length) ++ [f.methodByte])

def bytes (f : EncryptField) : List UInt8 := f.head ++ f.payload

end EncryptField

/-! ## blocks -/

/-- A block header and the data behind it. -/
structure BlockField where
  methodByte : UInt8
  hint : UInt8
  uncompressedSize : UInt32
  crc32 : UInt32
  data : List UInt8
  fits : data.length < 2 ^ 32

namespace BlockField

/-- The bytes before the data. -/
def head (b : BlockField) : List UInt8 :=
  le32 sigBlockHeader ++ (b.methodByte :: b.hint :: (le32 b.uncompressedSize ++
    (toLE 4 b.data.length ++ (le32 b.crc32 ++ le32 sigEndMarker))))

def bytes (b : BlockField) : List UInt8 := b.head ++ b.data

@[simp] theorem length_head (b : BlockField) : b.head.length = 22 := by
  simp [head]

/-- The block that is read from position `p`. -/
def block (p : Nat) (b : BlockField) : EggBlock where
  compressionMethod := .fromByte b.methodByte
  uncompressedSize := b.uncompressedSize
  compressedSize := UInt32.ofNat b.data.length
  crc32 := b.crc32
  dataPos := p + 22

end BlockField

/-- The blocks that are read from position `p` on. -/
def blocksAt (p : Nat) : List BlockField → List EggBlock
  | [] => []
  | b :: bs => b.block p :: blocksAt (p + b.bytes.length) bs

/-- The signatures that end the block list of an entry. -/
def IsRecordSig (sig : UInt32) : Prop :=
  sig = sigComment ∨ sig = sigFileHeader ∨ sig = sigEndMarker ∨ sig = sigDummy

/-! ## prefix fields -/

/-- The fields between the header and the first End Marker; a split info may
declare more than its two ids. -/
inductive PrefixField where
  | split (flags : UInt8) (prevId nextId : UInt32) (pad : List UInt8)
      (fits : FitsField flags (8 + pad.length))
  | solid (f : Field)
  | skip (f : Field)
  | globalEncrypt (f : Field)

namespace PrefixField

def bytes : PrefixField → List UInt8
  | split flags prevId nextId pad _ => le32 sigSplitInfo ++
      (extraField flags (8 + pad.length) ++ (le32 prevId ++ (le32 nextId ++ pad)))
  | solid f => le32 sigSolidInfo ++ f.bytes
  | skip f => le32 sigSkip ++ f.bytes
  | globalEncrypt f => le32 sigGlobalEncrypt ++ f.bytes

/-- What reading it changes. -/
def apply (p : Prefix) : PrefixField → Prefix
  | split _ prevId nextId _ _ => { p with splitInfo := some ⟨prevId, nextId⟩ }
  | solid _ => { p with isSolid := true }
  | skip _ | globalEncrypt _ => p

def splitInfo? : PrefixField → Option SplitInfo
  | split _ prevId nextId _ _ => some ⟨prevId, nextId⟩
  | _ => none

def isSolid : PrefixField → Bool
  | solid _ => true
  | _ => false

/-- The prefix of a list of fields: solid when a field says so, and with the
last split info. -/
theorem foldl_apply (fs : List PrefixField) (p : Prefix) :
    fs.foldl apply p =
      ⟨p.isSolid || fs.any isSolid, (fs.filterMap splitInfo?).getLast?.or p.splitInfo⟩ := by
  induction fs generalizing p with
  | nil => simp
  | cons f fs ih =>
      rw [List.foldl_cons, ih]
      cases f with
      | split flags prevId nextId pad fits =>
          simp only [apply, isSolid, splitInfo?, List.any_cons, List.filterMap_cons,
            List.getLast?_cons, Bool.false_or]
          cases (fs.filterMap splitInfo?).getLast? <;> rfl
      | solid f => simp [apply, isSolid, splitInfo?]
      | skip f => simp [apply, isSolid, splitInfo?]
      | globalEncrypt f => simp [apply, isSolid, splitInfo?]

end PrefixField

/-! ## records -/

/-- A file entry as a writer describes it: a plain UTF-8 name, at most one
Windows and one POSIX info, any comments, in any order; an encryption info, if
any, behind them; and the blocks. -/
structure EntryDesc where
  fileId : UInt32
  size : UInt64
  name : String
  plain : PlainName name
  nameFlags : UInt8
  unflagged : nameFlags &&& 0x1C = 0
  nameFits : FitsField nameFlags (utf8Bytes name).length
  windows : Option WindowsField
  posix : Option PosixField
  comments : List Field
  subs : List SubHeader
  encrypt : Option EncryptField
  blocks : List BlockField

namespace EntryDesc

/-- The flags of a plain name announce nothing. -/
theorem flags_clear (e : EntryDesc) :
    ¬ e.nameFlags &&& fnAreaCode ≠ 0 ∧ ¬ e.nameFlags &&& fnRelative ≠ 0 := by
  have h := e.unflagged
  have hArea : fnAreaCode = 0x1C &&& fnAreaCode := by decide
  have hRel : fnRelative = 0x1C &&& fnRelative := by decide
  rw [not_not, not_not, hArea, hRel, ← UInt8.and_assoc, ← UInt8.and_assoc, h]
  simp

/-- The name field of the entry. -/
def filenameField (e : EntryDesc) : FilenameField where
  flags := e.nameFlags
  areaCode := 0
  parentId := 0
  name := utf8Bytes e.name
  fits := by
    simpa [e.flags_clear.1, e.flags_clear.2] using e.nameFits

/-- The sub-headers of the entry, the encryption info apart, in a fixed order. -/
def canonicalSubs (e : EntryDesc) : List SubHeader :=
  .filename e.filenameField :: ((e.windows.map SubHeader.windows).toList ++
    ((e.posix.map SubHeader.posix).toList ++ e.comments.map SubHeader.comment))

/-- The order the sub-headers stand in is any order of theirs. -/
def WellOrdered (e : EntryDesc) : Prop := e.subs.Perm e.canonicalSubs

/-- The bytes of all sub-headers. -/
def subBytes (e : EntryDesc) : List UInt8 :=
  e.subs.flatMap SubHeader.bytes ++ (e.encrypt.map EncryptField.bytes).getD []

def bytes (e : EntryDesc) : List UInt8 :=
  le32 sigFileHeader ++ (le32 e.fileId ++ (le64 e.size ++ (e.subBytes ++
    (le32 sigEndMarker ++ e.blocks.flatMap BlockField.bytes))))

/-- The time of the Windows info when there is one, else the one of the POSIX
info. -/
def time (e : EntryDesc) : Option UInt64 :=
  (e.windows.map (·.time)).or (e.posix.map fun f => unixToFiletime f.mtime)

/-- The attributes of the Windows info, with the directory bit of the POSIX one. -/
def attr (e : EntryDesc) : UInt8 :=
  (e.windows.map (·.attr)).getD 0 ||| (e.posix.map PosixField.attr).getD 0

/-- The entry that is described, when its record stands at position `p`. -/
def entry (e : EntryDesc) (p : Nat) : EggFileEntry where
  fileName := e.name
  fileId := e.fileId
  uncompressedSize := e.size
  blocks := blocksAt (p + (4 + (12 + (e.subBytes.length + 4)))) e.blocks
  encryptInfo := e.encrypt.map EncryptField.info
  fileTime := e.time
  fileAttr := e.attr
  parentId := none

end EntryDesc

/-- The records of an archive. -/
inductive Record where
  | entry (e : EntryDesc) (ordered : e.WellOrdered)
  | comment (f : Field)
  | dummy (f : Field)

namespace Record

def bytes : Record → List UInt8
  | entry e _ => e.bytes
  | comment f => le32 sigComment ++ f.bytes
  | dummy f => le32 sigDummy ++ f.bytes

/-- The entries read from a record at position `p`. -/
def entries (p : Nat) : Record → List EggFileEntry
  | entry e _ => [e.entry p]
  | comment _ | dummy _ => []

def isEncrypted : Record → Bool
  | entry e _ => e.encrypt.isSome
  | comment _ | dummy _ => false

end Record

/-- A record with or without an End Marker (a volume boundary) before it. -/
structure PlacedRecord where
  boundary : Bool
  record : Record

def PlacedRecord.bytes (r : PlacedRecord) : List UInt8 :=
  (if r.boundary then le32 sigEndMarker else []) ++ r.record.bytes

/-- The entries read from a list of records that starts at position `p`. -/
def entriesAt (p : Nat) : List PlacedRecord → List EggFileEntry
  | [] => []
  | r :: rs => r.record.entries (p + (if r.boundary then 4 else 0)) ++
      entriesAt (p + r.bytes.length) rs

/-! ## archives -/

/-- An archive as a writer describes it. -/
structure ArchiveDesc where
  version : UInt16
  headerId : UInt32
  reserved : UInt32
  fields : List PrefixField
  records : List PlacedRecord

namespace ArchiveDesc

/-- The header and the prefix, up to its End Marker. -/
def prefixBytes (d : ArchiveDesc) : List UInt8 :=
  le32 sigEggHeader ++ (le16 d.version ++ (le32 d.headerId ++ (le32 d.reserved ++
    (d.fields.flatMap PrefixField.bytes ++ le32 sigEndMarker))))

def bytes (d : ArchiveDesc) : List UInt8 :=
  d.prefixBytes ++ (d.records.flatMap PlacedRecord.bytes ++ le32 sigEndMarker)

/-- The archive that is described. -/
def archive (d : ArchiveDesc) : EggArchive where
  reader := ⟨d.bytes, d.bytes.length⟩
  entries := entriesAt d.prefixBytes.length d.records
  isEncrypted := d.records.any fun r => r.record.isEncrypted
  isSolid := d.fields.any PrefixField.isSolid
  headerId := d.headerId
  splitInfo := (d.fields.filterMap PrefixField.splitInfo?).getLast?

end ArchiveDesc

/-! ## reading fields -/

section Reading

variable {c : Cursor} {r : List UInt8}

theorem readExtraField_of_rest {flags : UInt8} {n : Nat} (hn : FitsField flags n)
    (h : c.rest = extraField flags n ++ r) :
    readExtraField.run c = (.ok (flags, UInt32.ofNat n), c.advance (extraField flags n).length) ∧
      (c.advance (extraField flags n).length).rest = r := by
  refine ⟨?_, Cursor.rest_advance_of_append h rfl⟩
  rw [extraField, List.cons_append] at h
  obtain ⟨h₁, h⟩ := readU8_of_rest h
  rw [readExtraField, Run.bind_of_ok h₁]
  unfold FitsField at hn
  by_cases hw : flags &&& 0x01 ≠ 0
  · rw [if_pos hw] at h hn ⊢
    have hle : toLE 4 n = le32 (UInt32.ofNat n) := by
      rw [le32, UInt32.toNat_ofNat_of_lt' hn]
    rw [hle] at h
    obtain ⟨h₂, -⟩ := readU32_of_rest h
    rw [Run.bind_of_ok h₂]
    simp [extraField, hw, Nat.add_comm]
  · rw [if_neg hw] at h hn ⊢
    have hle : toLE 2 n = le16 (UInt16.ofNat n) := by
      rw [le16, UInt16.toNat_ofNat_of_lt' hn]
    rw [hle] at h
    obtain ⟨h₂, -⟩ := readU16_of_rest h
    have hsize : (UInt16.ofNat n).toUInt32 = UInt32.ofNat n := by
      apply UInt32.toNat_inj.mp
      rw [UInt16.toNat_toUInt32, UInt16.toNat_ofNat_of_lt' hn,
        UInt32.toNat_ofNat_of_lt' (by unfold UInt32.size; omega)]
    rw [Run.bind_of_ok h₂]
    simp [extraField, hw, Nat.add_comm, hsize]

/-- The size that is read back is the one that was written. -/
theorem FitsField.toNat_ofNat {flags : UInt8} {n : Nat} (hn : FitsField flags n) :
    (UInt32.ofNat n).toNat = n := UInt32.toNat_ofNat_of_lt' hn.lt

theorem skipField_of_rest {f : Field} (h : c.rest = f.bytes ++ r) :
    skipField.run c = (.ok (), c.advance f.bytes.length) ∧ (c.advance f.bytes.length).rest = r := by
  refine ⟨?_, Cursor.rest_advance_of_append h rfl⟩
  rw [Field.bytes, List.append_assoc] at h
  obtain ⟨h₁, h⟩ := readExtraField_of_rest f.fits h
  rw [skipField, Run.bind_of_ok h₁]
  simp only [f.fits.toNat_ofNat, skip_run, Field.bytes, List.length_append, Cursor.advance_advance]

end Reading

end Unegg
