import Unegg.Decompress

/-!
# Unegg.Decompress.Checksum

Two facts about every decompressor, whatever its input:

* it gives up on the first failed write (`stops_decompress`), and
* the checksum it returns is that of the bytes it has delivered
  (`delivers_decompress`).

The loops in this repository have both; the two crates that drive the writer
themselves are assumed to (`Crates.StopsOnError`, `Crates.AzoChecksum`).
-/

namespace Unegg

open Prog Crc32 Coder

/-- The crates that write by themselves pass a failed write on. -/
structure Crates.StopsOnError (crates : Crates) : Prop where
  lzma : ∀ stream memlimit, (crates.lzma stream memlimit).Streams
  azo : ∀ size maxOutput encrypted, (crates.azo size maxOutput encrypted).Streams

/-- `libazo` returns the checksum of its output. -/
def Crates.AzoChecksum (crates : Crates) : Prop :=
  ∀ size maxOutput encrypted,
    Delivers (fun d crc => crc = crc32 d) [] (crates.azo size maxOutput encrypted)

/-- Crates for stored, unencrypted archives: every decompressor refuses. -/
def Crates.storeOnly : Crates where
  pbkdf2 _ _ _ len := List.replicate len 0
  length_pbkdf2 := fun _ _ _ _ => List.length_replicate
  hmacSha1 _ _ := List.replicate 20 0
  length_hmacSha1 := fun _ _ => List.length_replicate
  aes128 _ block := block
  aes256 _ block := block
  inflate := {
    State := Unit
    new := ()
    decompress := fun _ _ _ => .error "corrupt deflate stream"
    consumed_le := fun _ _ _ _ _ _ _ h => nomatch h
    produced_le := fun _ _ _ _ _ _ _ h => nomatch h }
  bzip2 := {
    State := Unit
    new := ()
    read := fun _ _ => .ret (.error "bzip2: bz2 header missing", ()) }
  lzma _ _ := .fail "LZMA header too short"
  azo _ _ _ := .fail "bad header"
  fuel := 1

/-- Decoders that refuse everything stop on errors. -/
theorem Crates.storeOnly_stops : storeOnly.StopsOnError := ⟨fun _ _ => trivial, fun _ _ _ => trivial⟩

variable {crates : Crates}

/-! ## giving up -/

/-- What a decompressor makes of a failed write: the libraries that write by
themselves leave its text. -/
def Reports : CompressionMethod → IoError → EggError → Prop
  | .store | .deflate | .bzip2 => fun e x => x = .io e
  | .lzma => fun _ x => ∃ text, x = .lzmaFailed text
  | .azo => fun _ x => ∃ text, x = .azoFailed text
  | .unknown _ => fun _ _ => False

namespace Decode

variable {G : IoError → EggError → Prop}

/-- A read gives up at the end of the input, never at a refused write. -/
theorem stops_readExact (n : Nat) : (readExact n).StopsWith G := by
  intro bs
  change StopsWith G (if bs.length < n then _ else _)
  split <;> trivial

/-- A read of what there is never fails. -/
theorem stops_readUpTo (n : Nat) : (readUpTo n).StopsWith G := fun _ => trivial

theorem stops_decrypt (bs : List UInt8) : (decrypt bs).StopsWith G := fun _ => trivial

/-- A refused write is thrown as an error of its own. -/
theorem stops_writeAll (bs : List UInt8) : (writeAll bs).StopsWith fun e x => x = .io e :=
  ⟨trivial, .io, fun _ _ => ⟨rfl, rfl⟩⟩

/-- A refused write of output that may be empty is thrown as an error. -/
theorem stops_writeSome (bs : List UInt8) : (writeSome bs).StopsWith fun e x => x = .io e := by
  rw [writeSome]
  split
  · exact stops_writeAll bs
  · trivial

end Decode

open Decode

/-- Stored data gives up with the error of the write. -/
theorem stops_extractStore (size : Nat) : (extractStore size).StopsWith (Reports .store) := by
  refine .loop (fun p => ?_) _ _
  rw [storeStep]
  split
  · trivial
  · refine .bind (stops_readExact _) fun buf => .bind (stops_decrypt _) fun buf' => ?_
    exact .bind (stops_writeAll _) fun _ => trivial

/-- A refill writes nothing. -/
theorem stops_refill {G : IoError → EggError → Prop} (s : DeflateState crates) :
    (refill crates s).StopsWith G := by
  rw [refill]
  split
  · exact .bind (stops_readExact _) fun buf => .bind (stops_decrypt _) fun _ => trivial
  · trivial

/-- The Deflate loop gives up with the error of the write. -/
theorem stops_extractDeflate (size : Nat) :
    (extractDeflate crates size).StopsWith (Reports .deflate) := by
  refine .loop (fun s => ?_) _ _
  rw [deflateStep]
  refine .bind (stops_refill s) fun s => ?_
  split
  · trivial
  · exact .bind (stops_writeSome _) fun _ => trivial

/-- Pulling from a decoder writes nothing. -/
theorem stops_pull {α : Type} {G : IoError → EggError → Prop} (limit : Nat) (p : Pull α) :
    (pull limit p).StopsWith G := by
  induction p generalizing limit with
  | ret a => trivial
  | read n k ih =>
      intro bs
      change StopsWith G (if bs = [] then _ else _)
      split
      · exact ih _ _
      · exact fun bs' => ih _ _

/-- The bzip2 loop gives up with the error of the write. -/
theorem stops_extractBzip2 (size : Nat) :
    (extractBzip2 crates size).StopsWith (Reports .bzip2) := by
  refine .loop (fun s => ?_) _ _
  rw [bzip2Step]
  refine .bind (stops_pull _ _) fun r => ?_
  obtain ⟨⟨result, decoder⟩, limit⟩ := r
  cases result with
  | error e => trivial
  | ok buf =>
      simp only
      split
      · trivial
      · exact .bind (stops_writeAll _) fun _ => trivial

/-- The LZMA decoder is handed the writer, and its error is wrapped. -/
theorem stops_extractLzma (hcrates : crates.StopsOnError) (size maxOutput : Nat) :
    (extractLzma crates size maxOutput).StopsWith (Reports .lzma) := by
  rw [extractLzma]
  split
  · trivial
  · refine .bind (stops_readExact _) fun header => .bind (stops_decrypt _) fun header => ?_
    refine .bind (stops_readUpTo _) fun data => ?_
    split
    · trivial
    · refine .bind (stops_decrypt _) fun data => .bind (.tally ?_ _) fun _ => trivial
      exact .mapErr (streams_iff.mp (hcrates.lzma _ _)) fun _ text _ => ⟨text, rfl⟩

/-- The AZO decoder is handed the writer, and its error is wrapped. -/
theorem stops_extractAzo (hcrates : crates.StopsOnError) (size maxOutput : Nat)
    (encrypted : Bool) :
    (extractAzo crates size maxOutput encrypted).StopsWith (Reports .azo) :=
  .mapErr (streams_iff.mp (hcrates.azo _ _ _)) fun _ text _ => ⟨text, rfl⟩

/-- **Every decompressor gives up on the first failed write.** -/
theorem stops_decompress (hcrates : crates.StopsOnError) (method : CompressionMethod)
    (size maxOutput : Nat) (encrypted : Bool) :
    (decompress crates method size maxOutput encrypted).StopsWith (Reports method) := by
  cases method with
  | store => exact stops_extractStore _
  | deflate => exact stops_extractDeflate _
  | bzip2 => exact stops_extractBzip2 _
  | lzma => exact stops_extractLzma hcrates _ _
  | azo => exact stops_extractAzo hcrates _ _ _
  | unknown n => trivial

/-- A copy gives up with the error of the write. -/
theorem stops_ioCopy (n : Nat) : (ioCopy n).StopsWith (Reports .store) := by
  induction n with
  | zero => trivial
  | succ n ih =>
      intro bs
      change StopsWith _ (if bs = [] then _ else _)
      split
      · trivial
      · exact ⟨ih, .io, fun _ _ => ⟨rfl, rfl⟩⟩

/-- Every method of a solid stream gives up as its codec reports. -/
theorem stops_decompressSolid (hcrates : crates.StopsOnError) (method : CompressionMethod)
    (len maxOutput : Nat) :
    (decompressSolid crates method len maxOutput).StopsWith (Reports method) := by
  cases method with
  | store => exact stops_ioCopy _
  | deflate => exact .bind (stops_extractDeflate _) fun _ => trivial
  | bzip2 => exact .bind (stops_extractBzip2 _) fun _ => trivial
  | lzma => exact .bind (stops_extractLzma hcrates _ _) fun _ => trivial
  | azo => exact .bind (stops_extractAzo hcrates _ _ _) fun _ => trivial
  | unknown n => trivial

/-! ## the checksum -/

section Checksum

variable {α β : Type} {acc : List UInt8} {Q : List UInt8 → β → Prop}

/-- A read adds nothing to the output. -/
theorem delivers_readExact {k : List UInt8 → Decode β} (n : Nat)
    (h : ∀ bs, Delivers Q acc (k bs)) : Delivers Q acc (Decode.readExact n >>= k) := by
  refine .bind fun bs => ?_
  change Delivers _ acc (if bs.length < n then _ else _)
  split
  · trivial
  · exact h bs

theorem delivers_decrypt {k : List UInt8 → Decode β} (bs : List UInt8)
    (h : ∀ bs', Delivers Q acc (k bs')) : Delivers Q acc (Decode.decrypt bs >>= k) :=
  .bind fun bs' => h bs'

/-- A `write_all` that goes on has delivered its bytes. -/
theorem delivers_writeAll {k : Unit → Decode β} {bs : List UInt8}
    (h : Delivers Q (acc ++ bs) (k ())) : Delivers Q acc (Decode.writeAll bs >>= k) := by
  refine .bind fun n r _ hr => ?_
  cases r with
  | none =>
      rw [hr rfl, List.take_length]
      exact h
  | some e => trivial

/-- Where there is nothing to write, nothing is added. -/
theorem delivers_writeSome {k : Unit → Decode β} {bs : List UInt8}
    (h : Delivers Q (acc ++ bs) (k ())) : Delivers Q acc (Decode.writeSome bs >>= k) := by
  rw [Decode.writeSome]
  split
  · exact delivers_writeAll h
  · next hnil =>
      rw [not_not] at hnil
      rw [hnil, List.append_nil] at h
      exact .bind h

end Checksum

/-- The checksum of stored data is that of what is written. -/
theorem delivers_extractStore (size : Nat) :
    Delivers (fun d crc => crc = crc32 d) [] (extractStore size) := by
  refine .loop (I := fun acc p => p.2 = Hasher.new.update acc) ?_ _ rfl
  rintro acc ⟨remaining, hasher⟩ rfl
  rw [storeStep]
  split
  · exact rfl
  · refine delivers_readExact _ fun buf => delivers_decrypt _ fun buf' => delivers_writeAll ?_
    exact Hasher.update_update _ _ _

/-- A refill only reads, so the hasher stays in step with the output. -/
theorem delivers_refill {s : DeflateState crates} {acc : List UInt8}
    (hs : s.hasher = Hasher.new.update acc) :
    Delivers (fun d s => s.hasher = Hasher.new.update d) acc (refill crates s) := by
  rw [refill]
  split
  · exact delivers_readExact _ fun buf => delivers_decrypt _ fun buf' => hs
  · exact hs

/-- A pass goes on with its state, or ends with the checksum of it. -/
theorem deflateNext_cases (s : DeflateState crates) (produced : List UInt8) (streamEnd : Bool) :
    deflateNext crates s produced streamEnd = .next s ∨
      deflateNext crates s produced streamEnd = .done s.hasher.finalize := by
  rw [deflateNext]
  split
  · exact .inr rfl
  · split
    · exact .inr rfl
    · exact .inl rfl

/-- The checksum of a Deflate block is that of what is written. -/
theorem delivers_extractDeflate (size : Nat) :
    Delivers (fun d crc => crc = crc32 d) [] (extractDeflate crates size) := by
  refine .loop (I := fun acc s => s.hasher = Hasher.new.update acc) ?_ _ rfl
  intro acc s hs
  rw [deflateStep]
  refine .bind ((delivers_refill hs).mono fun d s hs => ?_)
  split
  · trivial
  · next decompressor consumed produced streamEnd _ =>
      have hupdate : s.hasher.update produced = Hasher.new.update (d ++ produced) := by
        rw [hs, Hasher.update_update]
      refine delivers_writeSome ?_
      simp only
      rcases deflateNext_cases _ produced streamEnd with h | h
      · rw [h]
        exact hupdate
      · rw [h]
        exact congrArg Hasher.finalize hupdate

/-- Pulling from a decoder delivers nothing. -/
theorem delivers_pull {α : Type} {acc : List UInt8} (limit : Nat) (p : Pull α) :
    Delivers (fun d _ => d = acc) acc (pull limit p) := by
  induction p generalizing limit with
  | ret a => exact rfl
  | read n k ih =>
      intro bs
      change Delivers _ acc (if bs = [] then _ else _)
      split
      · exact ih _ _
      · exact fun bs' => ih _ _

/-- The checksum of a bzip2 block is that of what is written. -/
theorem delivers_extractBzip2 (size : Nat) :
    Delivers (fun d crc => crc = crc32 d) [] (extractBzip2 crates size) := by
  refine .loop (I := fun acc s => s.hasher = Hasher.new.update acc) ?_ _ rfl
  intro acc s hs
  rw [bzip2Step]
  refine .bind ((delivers_pull _ _).mono ?_)
  rintro _ ⟨⟨result, decoder⟩, limit⟩ rfl
  cases result with
  | error e => trivial
  | ok buf =>
      simp only
      split
      · exact congrArg Hasher.finalize hs
      · refine delivers_writeAll ?_
        change s.hasher.update buf = _
        rw [hs, Hasher.update_update]

/-- The checksum of an LZMA block is that of what is written. -/
theorem delivers_extractLzma (size maxOutput : Nat) :
    Delivers (fun d crc => crc = crc32 d) [] (extractLzma crates size maxOutput) := by
  rw [extractLzma]
  split
  · trivial
  · refine delivers_readExact _ fun header => delivers_decrypt _ fun header => ?_
    refine .bind fun data => ?_
    change Delivers _ [] (if data.length ≠ _ then _ else _)
    split
    · trivial
    · refine delivers_decrypt _ fun data => .bind ?_
      refine (Delivers.tally (Hasher.update_nil _) (Hasher.update_update _) _).mono ?_
      rintro d ⟨_, hasher⟩ rfl
      exact rfl

/-- **The checksum a decompressor returns is that of its output.** -/
theorem delivers_decompress (hazo : crates.AzoChecksum) (method : CompressionMethod)
    (size maxOutput : Nat) (encrypted : Bool) :
    Delivers (fun d crc => crc = crc32 d) [] (decompress crates method size maxOutput encrypted) := by
  cases method with
  | store => exact delivers_extractStore _
  | deflate => exact delivers_extractDeflate _
  | bzip2 => exact delivers_extractBzip2 _
  | lzma => exact delivers_extractLzma _ _
  | azo => exact .mapErr (hazo _ _ _)
  | unknown n => trivial

end Unegg
