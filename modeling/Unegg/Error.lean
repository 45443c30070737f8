import Mathlib

/-!
# Unegg.Error

The errors of `error.rs`, with the texts they are displayed as.  An
`std::io::Error` is its kind and its text; `From<io::Error>` is the
constructor `EggError.io`.
-/

namespace Unegg

/-- The `std::io::ErrorKind`s that this program makes or tells apart. -/
inductive ErrorKind where
  | unexpectedEof
  | writeZero
  | invalidData
  | invalidInput
  | notFound
  | brokenPipe
  | other
  deriving Repr, DecidableEq

/-- `std::io::Error`: a kind and the text it is displayed as. -/
structure IoError where
  kind : ErrorKind
  text : String
  deriving Repr, DecidableEq

namespace IoError

/-- `read_exact` met the end of its input. -/
def unexpectedEof : IoError := ⟨.unexpectedEof, "failed to fill whole buffer"⟩

/-- `write_all` met a writer that takes nothing. -/
def writeZero : IoError := ⟨.writeZero, "failed to write whole buffer"⟩

/-- A cursor was moved before its start. -/
def negativeSeek : IoError :=
  ⟨.invalidInput, "invalid seek to a negative or overflowing position"⟩

end IoError

inductive EggError where
  | notEggFile
  | corruptedFile
  | cantOpenFile (e : IoError)
  | cantOpenDestFile (e : IoError)
  | invalidFileCrc (expected got : UInt32)
  | unknownCompressionMethod (m : UInt8)
  | unsupportedEncryption (m : UInt8)
  | passwordNotSet
  | invalidPassword
  | authenticationFailed
  | pathTraversal (p : String)
  | bzip2Failed (e : String)
  | inflateFailed (e : String)
  | lzmaFailed (e : String)
  | azoFailed (e : String)
  | fileNotFound (name : String)
  | io (e : IoError)
  deriving Repr, DecidableEq

namespace EggError

/-- `{:08x}`: eight lower-case hexadecimal digits. -/
def hex8 (v : UInt32) : String :=
  let ds := Nat.toDigits 16 v.toNat
  String.ofList (List.replicate (8 - ds.length) '0' ++ ds)

/-- `Display for EggError`. -/
def toString : EggError → String
  | notEggFile => "not an EGG file"
  | corruptedFile => "corrupted file"
  | cantOpenFile e => "can't open file: " ++ e.text
  | cantOpenDestFile e => "can't open destination file: " ++ e.text
  | invalidFileCrc expected got =>
      "CRC mismatch: expected " ++ hex8 expected ++ ", got " ++ hex8 got
  | unknownCompressionMethod m => "unknown compression method: " ++ m.toNat.repr
  | unsupportedEncryption m => "unsupported encryption method: " ++ m.toNat.repr
  | passwordNotSet => "password not set"
  | invalidPassword => "invalid password"
  | authenticationFailed => "authentication failed (HMAC mismatch)"
  | pathTraversal p => "path traversal: " ++ p
  | bzip2Failed e => "bzip2 failed: " ++ e
  | inflateFailed e => "inflate failed: " ++ e
  | lzmaFailed e => "LZMA failed: " ++ e
  | azoFailed e => "AZO failed: " ++ e
  | fileNotFound name => "file not found in archive: " ++ name
  | io e => "I/O error: " ++ e.text

/-- Whether this came from writing to a closed pipe. -/
def isBrokenPipe : EggError → Bool
  | io e | cantOpenFile e | cantOpenDestFile e => e.kind = .brokenPipe
  | _ => false

end EggError

end Unegg
