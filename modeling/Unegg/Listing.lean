import Unegg.Effects
import Unegg.Filetime

/-!
# Unegg.Listing

The listing of an archive (`list_archive` in `main.rs`): one line for each
entry, written to standard output as it is made.
-/

namespace Unegg

open Prog

/-- `CompressionMethod::name`. -/
def CompressionMethod.name : CompressionMethod → String
  | store => "Store"
  | deflate => "Deflate"
  | bzip2 => "Bzip2"
  | azo => "AZO"
  | lzma => "LZMA"
  | unknown _ => "Unknown"

/-- `{s:>width}`. -/
def padLeft (width : Nat) (s : String) : String :=
  String.ofList (List.replicate (width - s.toList.length) ' ' ++ s.toList)

/-- `{s:<width}`. -/
def padRight (width : Nat) (s : String) : String :=
  String.ofList (s.toList ++ List.replicate (width - s.toList.length) ' ')

/-- The method of a listed entry: that of its first block. -/
def methodText (entry : EggFileEntry) : String :=
  match entry.blocks with
  | [] => "-"
  | block :: _ => block.compressionMethod.name

/-- The time of a listed entry. -/
def timeOf (entry : EggFileEntry) : Option String :=
  match entry.fileTime with
  | some ft => formatFiletime ft
  | none => some "                   "

/-- The line of an entry, without its line feed; `none` when making it aborts. -/
def listLine (entry : EggFileEntry) : Option String := do
  let enc := if entry.encryptInfo.isSome then "*" else " "
  let time ← timeOf entry
  let dirMarker := if entry.isDirectory then "D" else " "
  return dirMarker ++ enc ++ " " ++ padLeft 12 entry.uncompressedSize.toNat.repr ++ "  " ++
    padRight 7 (methodText entry) ++ "  " ++ time ++ "  " ++ entry.fileName

/-- `writeln!(out, ..)` for each entry. -/
def listEntry (os : Os) (entry : EggFileEntry) : Run World IoError Unit :=
  match listLine entry with
  | none => Run.panic
  | some line => (os.sink .stdout).writeAll (utf8Bytes (line ++ "\n"))

def listEntries (os : Os) (entries : List EggFileEntry) : Run World IoError Unit :=
  Run.forEach (listEntry os) entries

end Unegg
