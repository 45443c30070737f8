import Unegg.Coder.Streams
import Unegg.Archive
import Unegg.Crates
import Unegg.Crc32
import Unegg.Bytes

/-!
# Unegg.Decompress

The five decompressors and the writer that caps their output (`decompress/`).

Each `extract_x` is a `Coder`: it reads from the block, has the bytes decrypted
(the filter), and writes to whatever it is run against.  The `Option` of a
decryptor that the source passes around is the filter's; without one the
filter changes nothing.
-/

namespace Unegg

open Prog Crc32

/-- A decompressor. -/
abbrev Decode := Coder IoError EggError

namespace Decode

/-- `read_exact`. -/
def readExact (n : Nat) : Decode (List UInt8) :=
  Coder.read n fun bs => if bs.length < n then .fail (.io .unexpectedEof) else .ret bs

/-- `take(n).read_to_end`. -/
def readUpTo (n : Nat) : Decode (List UInt8) := Coder.read n .ret

/-- `if let Some(c) = crypto { c.decrypt(buf) }`. -/
def decrypt (bs : List UInt8) : Decode (List UInt8) := Coder.filter bs .ret

/-- `write_all(buf)?`. -/
def writeAll (bs : List UInt8) : Decode Unit :=
  Coder.writeAll bs fun _ r =>
    match r with
    | none => .ret ()
    | some e => .fail (.io e)

/-- `if produced > 0 { write_all(buf)? }`. -/
def writeSome (bs : List UInt8) : Decode Unit := if bs ≠ [] then writeAll bs else return ()

end Decode

/-! ## the cap -/

/-- `LimitWriter`: the inner writer's state and the bytes it may still take. -/
def limitWriter {σ : Type} (w : ByteSink IoError σ) : ByteSink IoError (σ × Nat) where
  write bs := ⟨fun p =>
    if p.2 < bs.length then
      (.err ⟨.invalidData, "decompressed output exceeds declared uncompressed size"⟩, p)
    else
      match (w.write bs).run p.1 with
      | (.ok n, s) => (.ok n, (s, p.2 - n))
      | (.err e, s) => (.err e, (s, p.2))
      | (.panic, s) => (.panic, (s, p.2))
      | (.hang, s) => (.hang, (s, p.2))⟩
  flush := ⟨fun p => ((w.flush.run p.1).1, ((w.flush.run p.1).2, p.2))⟩
  write_le := by
    intro bs p n p' h
    simp only at h
    split at h
    · simp at h
    · rcases hw : (w.write bs).run p.1 with ⟨m | e | _ | _, s⟩
      · simp only [hw, Prod.mk.injEq, Outcome.ok.injEq] at h
        rw [← h.1]
        exact w.write_le _ _ _ _ hw
      all_goals simp [hw] at h

/-- The capped writer takes what the inner one does. -/
theorem takes_limitWriter {σ : Type} {w : ByteSink IoError σ} {I : List UInt8 → σ → Prop}
    (hw : w.Takes I) : (limitWriter w).Takes fun d p => I d p.1 where
  write_ok := by
    intro bs d p n p' hI h
    simp only [limitWriter] at h
    split at h
    · simp at h
    · rcases hwrite : (w.write bs).run p.1 with ⟨m | e | _ | _, s⟩
      · simp only [hwrite, Prod.mk.injEq, Outcome.ok.injEq] at h
        obtain ⟨rfl, rfl⟩ := h
        exact hw.write_ok _ _ _ _ _ hI hwrite
      all_goals simp [hwrite] at h
  write_err := by
    intro bs d p e p' hI h
    simp only [limitWriter] at h
    split at h
    · simp only [Prod.mk.injEq] at h
      rwa [← h.2]
    · rcases hwrite : (w.write bs).run p.1 with ⟨m | e | _ | _, s⟩
      · simp [hwrite] at h
      · simp only [hwrite, Prod.mk.injEq, Outcome.err.injEq] at h
        obtain ⟨rfl, rfl⟩ := h
        exact hw.write_err _ _ _ _ _ hI hwrite
      all_goals simp [hwrite] at h
  flush := fun d p hI => hw.flush d p.1 hI

theorem steps_limitWriter {σ : Type} {w : ByteSink IoError σ} {R : σ → σ → Prop} [Std.Refl R]
    {bs : List UInt8} (hw : Run.Steps R (w.write bs)) :
    Run.Steps (fun p q => R p.1 q.1) ((limitWriter w).write bs) := by
  intro p
  have h := hw p.1
  simp only [limitWriter]
  split
  · exact Std.Refl.refl p.1
  · rcases hrun : (w.write bs).run p.1 with ⟨n | e | _ | _, s⟩ <;> rwa [hrun] at h

/-! ## store -/

/-- One pass over the bytes that remain. -/
def storeStep : Nat × Hasher → Decode (Flow (Nat × Hasher) UInt32)
  | (remaining, hasher) =>
    if remaining = 0 then return .done hasher.finalize
    else do
      let toRead := min remaining 8192
      let buf ← Decode.readExact toRead
      let buf ← Decode.decrypt buf
      Decode.writeAll buf
      return .next (remaining - toRead, hasher.update buf)

def extractStore (size : Nat) : Decode UInt32 := Coder.loop storeStep (size + 1) (size, .new)

/-! ## deflate -/

variable (crates : Crates)

structure DeflateState where
  decompressor : crates.inflate.State
  inBuf : List UInt8
  remaining : Nat
  hasher : Hasher

/-- The next input, when the last one is used up. -/
def refill (s : DeflateState crates) : Decode (DeflateState crates) :=
  if s.inBuf = [] ∧ 0 < s.remaining then do
    let toRead := min s.remaining 4096
    let buf ← Decode.readExact toRead
    let buf ← Decode.decrypt buf
    return { s with inBuf := buf, remaining := s.remaining - toRead }
  else return s

/-- Whether to go on: not after the end of the stream, and not when all input
is used up and nothing came out. -/
def deflateNext (s : DeflateState crates) (produced : List UInt8) (streamEnd : Bool) :
    Flow (DeflateState crates) UInt32 :=
  if streamEnd then .done s.hasher.finalize
  else if s.inBuf = [] ∧ s.remaining = 0 ∧ produced = [] then .done s.hasher.finalize
  else .next s

/-- One call of the decompressor. -/
def deflateStep (s : DeflateState crates) : Decode (Flow (DeflateState crates) UInt32) := do
  let s ← refill crates s
  match crates.inflate.decompress s.decompressor s.inBuf 4096 with
  | .error e => .fail (.inflateFailed e)
  | .ok (decompressor, consumed, produced, streamEnd) =>
    Decode.writeSome produced
    let s := { s with
      decompressor
      inBuf := s.inBuf.drop consumed
      hasher := s.hasher.update produced }
    return deflateNext crates s produced streamEnd

def extractDeflate (compressedSize : Nat) : Decode UInt32 :=
  Coder.loop (deflateStep crates) crates.fuel ⟨crates.inflate.new, [], compressedSize, .new⟩

/-! ## bzip2 -/

/-- The decoder's reads: at most `limit` bytes in all, each decrypted as it is
read. -/
def pull {α : Type} (limit : Nat) : Pull α → Decode (α × Nat)
  | .ret a => .ret (a, limit)
  | .read n k => .read (min n limit) fun bs =>
      if bs = [] then pull limit (k [])
      else .filter bs fun bs' => pull (limit - bs.length) (k bs')

structure BzipState where
  decoder : crates.bzip2.State
  limit : Nat
  hasher : Hasher

/-- One read from the decoder. -/
def bzip2Step (s : BzipState crates) : Decode (Flow (BzipState crates) UInt32) := do
  let ((result, decoder), limit) ← pull s.limit (crates.bzip2.read s.decoder 8192)
  match result with
  | .error e => .fail (.bzip2Failed e)
  | .ok buf =>
    if buf = [] then return .done s.hasher.finalize
    else
      Decode.writeAll buf
      return .next ⟨decoder, limit, s.hasher.update buf⟩

def extractBzip2 (compressedSize : Nat) : Decode UInt32 :=
  Coder.loop (bzip2Step crates) crates.fuel ⟨crates.bzip2.new, compressedSize, .new⟩

/-! ## LZMA -/

/-- The stream given to the library: properties, unknown size, data. -/
def lzmaStream (header data : List UInt8) : List UInt8 :=
  header.drop 4 ++ (Bytes.toLE 8 (2 ^ 64 - 1) ++ data)

def extractLzma (compressedSize maxOutput : Nat) : Decode UInt32 :=
  if compressedSize < 9 then .fail (.lzmaFailed "block too small for LZMA header")
  else do
    let header ← Decode.readExact 9
    let header ← Decode.decrypt header
    let dataSize := compressedSize - 9
    let data ← Decode.readUpTo dataSize
    if data.length ≠ dataSize then .fail (.lzmaFailed "truncated LZMA block")
    else
      let data ← Decode.decrypt data
      let memlimit := min (maxOutput + 2 ^ 16) (2 ^ 64 - 1)
      let (_, hasher) ← Coder.tally Hasher.update .new
        ((crates.lzma (lzmaStream header data) memlimit).mapErr .lzmaFailed)
      return hasher.finalize

/-! ## AZO -/

def extractAzo (compressedSize maxOutput : Nat) (encrypted : Bool) : Decode UInt32 :=
  (crates.azo compressedSize maxOutput encrypted).mapErr .azoFailed

/-! ## by method -/

/-- The dispatch of `decompress_block`. -/
def decompress (method : CompressionMethod) (compressedSize maxOutput : Nat) (encrypted : Bool) :
    Decode UInt32 :=
  match method with
  | .store => extractStore compressedSize
  | .deflate => extractDeflate crates compressedSize
  | .bzip2 => extractBzip2 crates compressedSize
  | .lzma => extractLzma crates compressedSize maxOutput
  | .azo => extractAzo crates compressedSize maxOutput encrypted
  | .unknown n => .fail (.unknownCompressionMethod n)

/-- `io::copy`, at most `n` reads. -/
def ioCopy : Nat → Decode Unit
  | 0 => .hang
  | n + 1 => .read 8192 fun bs =>
      if bs = [] then .ret ()
      else .writeAll bs fun _ r =>
        match r with
        | none => ioCopy n
        | some e => .fail (.io e)

/-- The dispatch of `extract_all_solid`, on a stream of `len` bytes. -/
def decompressSolid (method : CompressionMethod) (len maxOutput : Nat) : Decode Unit :=
  match method with
  | .store => ioCopy (len + 1)
  | .deflate => do
    let _ ← extractDeflate crates len
    return ()
  | .bzip2 => do
    let _ ← extractBzip2 crates len
    return ()
  | .lzma => do
    let _ ← extractLzma crates len maxOutput
    return ()
  | .azo => do
    let _ ← extractAzo crates len maxOutput false
    return ()
  | .unknown n => .fail (.unknownCompressionMethod n)

end Unegg
