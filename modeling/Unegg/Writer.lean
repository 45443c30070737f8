import Unegg.Archive.Positions
import Unegg.Archive.Roundtrip
import Unegg.Decompress.Encode
import Unegg.Decryptor.Lock

/-!
# Unegg.Writer

An archive writer, the other side of `EggArchive::open` and of the extraction,
as the test suite has them for small archives (`make_store_egg`,
`make_zipcrypto_store_egg`, `make_solid_store_egg`).

The blocks of a file are given with what they hold encoded and what they are
the checksum of (`Chunk`).  They are encrypted under the file's lock, whose
keys go on from one to the next (`sealChunks`).  An archive is any list of such
files, with comments, dummies and volume boundaries between them
(`PackedArchive.desc`).
-/

namespace Unegg

open Bytes Crc32

variable {crates : Crates}

/-! ## blocks -/

/-- A block to be written: its encoded data, and the content that its size and
its checksum are of. -/
structure Chunk where
  methodByte : UInt8
  hint : UInt8
  encoded : List UInt8
  content : List UInt8
  encodedFits : encoded.length < 2 ^ 32
  contentFits : content.length < 2 ^ 32

namespace Chunk

/-- The block of a chunk, encrypted under the keys `d`. -/
def block (crates : Crates) (d : Option Decryptor) (c : Chunk) : BlockField where
  methodByte := c.methodByte
  hint := c.hint
  uncompressedSize := UInt32.ofNat c.content.length
  crc32 := crc32 c.content
  data := (encryptSome crates c.encoded d).1
  fits := by
    rw [length_encryptSome]
    exact c.encodedFits

/-- A chunk that is stored as it is. -/
def stored (content : List UInt8) (h : content.length < 2 ^ 32) : Chunk where
  methodByte := 0
  hint := 0
  encoded := content
  content
  encodedFits := h
  contentFits := h

end Chunk

/-- The blocks of a file, the keys going on from one to the next. -/
def sealChunks (crates : Crates) : List Chunk → Option Decryptor → List BlockField
  | [], _ => []
  | c :: cs, d => c.block crates d :: sealChunks crates cs (encryptSome crates c.encoded d).2

/-! ## entries -/

/-- What is to become an entry: a description, of which the name, the id, the
times and the attributes are taken, the content and the blocks. -/
structure PackedFile where
  desc : EntryDesc
  ordered : desc.WellOrdered
  content : List UInt8
  chunks : List Chunk
  lock : Option Lock
  fits : content.length < 2 ^ 64

namespace PackedFile

def name (f : PackedFile) : String := f.desc.name

def isDirectory (f : PackedFile) : Bool := f.desc.attr &&& attrDirectory ≠ 0

variable (crates : Crates) (pwd : String)

/-- The keys the blocks are encrypted under. -/
def keys (f : PackedFile) : Option Decryptor := f.lock.map (·.decryptor crates pwd)

def blocks (f : PackedFile) : List BlockField := sealChunks crates f.chunks (f.keys crates pwd)

/-- The data of the blocks, which an authentication footer is of. -/
def stored (f : PackedFile) : List UInt8 := (f.blocks crates pwd).flatMap BlockField.data

/-- The entry of a file. -/
def pack (f : PackedFile) : EntryDesc :=
  { f.desc with
    size := UInt64.ofNat f.content.length
    encrypt := f.lock.map (·.field crates pwd (f.stored crates pwd))
    blocks := f.blocks crates pwd }

end PackedFile

/-! ## archives -/

inductive PackedRecord where
  | file (f : PackedFile)
  | comment (f : Field)
  | dummy (f : Field)

namespace PackedRecord

def file? : PackedRecord → Option PackedFile
  | file f => some f
  | comment _ | dummy _ => none

def record (crates : Crates) (pwd : String) : PackedRecord → Record
  | file f => .entry (f.pack crates pwd) f.ordered
  | comment f => .comment f
  | dummy f => .dummy f

end PackedRecord

/-- An archive to be written; each record is given with whether a volume
boundary stands before it. -/
structure PackedArchive where
  version : UInt16
  headerId : UInt32
  reserved : UInt32
  fields : List PrefixField
  records : List (Bool × PackedRecord)

namespace PackedArchive

def files (a : PackedArchive) : List PackedFile := a.records.filterMap fun r => r.2.file?

variable (crates : Crates) (pwd : String)

def desc (a : PackedArchive) : ArchiveDesc where
  version := a.version
  headerId := a.headerId
  reserved := a.reserved
  fields := a.fields
  records := a.records.map fun r => ⟨r.1, r.2.record crates pwd⟩

/-- The bytes that are written. -/
def bytes (a : PackedArchive) : List UInt8 := (a.desc crates pwd).bytes

theorem entryDescs_desc (a : PackedArchive) :
    entryDescs (a.desc crates pwd).records = a.files.map (PackedFile.pack crates pwd) := by
  have hrecord : ∀ r : PackedRecord,
      (r.record crates pwd).entryDesc? = r.file?.map (PackedFile.pack crates pwd) := by
    intro r
    cases r <;> rfl
  simp only [entryDescs, desc, files, List.filterMap_map, List.map_filterMap, Function.comp_def,
    hrecord]

end PackedArchive

/-! ## what is read back -/

/-- An entry that was read from an archive in which a file was packed. -/
structure ReadBack (crates : Crates) (archive : EggArchive) (pwd : String) (entry : EggFileEntry)
    (f : PackedFile) : Prop where
  name : entry.fileName = f.name
  directory : entry.isDirectory = f.isDirectory
  size : entry.uncompressedSize = UInt64.ofNat f.content.length
  info : entry.encryptInfo =
    (f.lock.map (·.field crates pwd (f.stored crates pwd))).map EncryptField.info
  blocks : ∃ p, entry.blocks = blocksAt p (f.blocks crates pwd)
  data : entry.blocks.map (storedAt archive.reader.data) =
    (f.blocks crates pwd).map BlockField.data

theorem ReadAs.readBack {archive : EggArchive} {pwd : String} {entry : EggFileEntry}
    {f : PackedFile} (h : ReadAs archive.reader.data entry (f.pack crates pwd)) :
    ReadBack crates archive pwd entry f := by
  obtain ⟨p, rfl, hdata⟩ := h
  exact ⟨rfl, rfl, rfl, rfl, ⟨_, rfl⟩, hdata⟩

/-- The archive that is described has the files that were packed, in their order. -/
theorem PackedArchive.readBack_desc (crates : Crates) (pwd : String) (a : PackedArchive) :
    (a.desc crates pwd).archive.isSolid = a.fields.any PrefixField.isSolid ∧
      List.Forall₂ (ReadBack crates (a.desc crates pwd).archive pwd)
        (a.desc crates pwd).archive.entries a.files := by
  obtain ⟨d, hd⟩ : ∃ d, d = a.desc crates pwd := ⟨_, rfl⟩
  have h : List.Forall₂ (ReadAs d.archive.reader.data) d.archive.entries (entryDescs d.records) :=
    d.stored
  rw [hd, a.entryDescs_desc, ← hd, List.forall₂_map_right_iff] at h
  rw [← hd]
  exact ⟨by rw [hd]; rfl, h.imp fun _ _ hread => hread.readBack⟩

theorem ArchiveDesc.open_run (pages : CodePages) (d : ArchiveDesc) :
    (EggArchive.open' pages).run ⟨d.bytes, 0⟩ = (.ok d.archive, ⟨d.bytes, d.bytes.length⟩) := by
  have h := d.open_prefix pages (d.records.flatMap PlacedRecord.bytes ++ le32 sigEndMarker)
  rw [← ArchiveDesc.bytes] at h
  rw [h, d.openRecords_run]

/-- **Reading back**: the archive that is opened has the files that were packed,
in their order. -/
theorem PackedArchive.readBack (crates : Crates) (pages : CodePages) (pwd : String)
    (a : PackedArchive) :
    ∃ archive c, (EggArchive.open' pages).run ⟨a.bytes crates pwd, 0⟩ = (.ok archive, c) ∧
      archive.isSolid = a.fields.any PrefixField.isSolid ∧
      List.Forall₂ (ReadBack crates archive pwd) archive.entries a.files := by
  obtain ⟨hsolid, hback⟩ := a.readBack_desc crates pwd
  rw [bytes]
  exact ⟨_, _, (a.desc crates pwd).open_run pages, hsolid, hback⟩

end Unegg
