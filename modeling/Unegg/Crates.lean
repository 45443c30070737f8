import Unegg.Coder
import Unegg.Encoding
import Unegg.Error

/-!
# Unegg.Crates

The third-party crates the extraction calls, as one parameter: key derivation
and authentication (`pbkdf2`, `hmac`), the AES block cipher (`aes`), and the
decompressors (`flate2`, `bzip2`, `lzma_rs`, `libazo`).  The fields that are
propositions are what their types promise: the length of a derived key and of
a tag, and that a step of the inflater stays inside its buffers.

`fuel` bounds the passes of the loops that go on as long as a decompressor
keeps giving output; it is no part of the program.
-/

namespace Unegg

open Prog

instance : WriteError IoError where
  writeZero := .writeZero

/-- `[u8; 16]`. -/
abbrev Block := Vector UInt8 16

/-- `flate2::Decompress`, one call of `decompress` at a time: the bytes of the
input it took, what it put out, and whether the stream has ended. -/
structure Inflate where
  State : Type
  new : State
  decompress : State → List UInt8 → Nat → Except String (State × Nat × List UInt8 × Bool)
  consumed_le : ∀ s input cap s' consumed output done,
    decompress s input cap = .ok (s', consumed, output, done) → consumed ≤ input.length
  produced_le : ∀ s input cap s' consumed output done,
    decompress s input cap = .ok (s', consumed, output, done) → output.length ≤ cap

/-- What a reader does that sits on another reader: reads of the inner one. -/
inductive Pull (α : Type) where
  | ret (a : α)
  | read (n : Nat) (k : List UInt8 → Pull α)

/-- `bzip2::read::BzDecoder`, one `read` into a buffer of the given length at
a time. -/
structure BzDecoder where
  State : Type
  new : State
  read : State → Nat → Pull (Except String (List UInt8) × State)

structure Crates where
  /-- `pbkdf2_hmac::<Sha1>(password, salt, rounds, [0; len])`. -/
  pbkdf2 : List UInt8 → List UInt8 → Nat → Nat → List UInt8
  length_pbkdf2 : ∀ password salt rounds len, (pbkdf2 password salt rounds len).length = len
  /-- The tag of `Hmac::<Sha1>` under a key. -/
  hmacSha1 : List UInt8 → List UInt8 → List UInt8
  length_hmacSha1 : ∀ key msg, (hmacSha1 key msg).length = 20
  aes128 : List UInt8 → Block → Block
  aes256 : List UInt8 → Block → Block
  inflate : Inflate
  bzip2 : BzDecoder
  /-- `lzma_decompress_with_options` on a stream, under a memory limit. -/
  lzma : List UInt8 → Nat → Coder IoError String Unit
  /-- `libazo::extract_azo`: the compressed size, the output limit, and whether
  there is a decryption callback. -/
  azo : Nat → Nat → Bool → Coder IoError String UInt32
  fuel : Nat

end Unegg
