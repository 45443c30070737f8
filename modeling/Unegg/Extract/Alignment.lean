import Unegg.Coder.Handed
import Unegg.Decompress.Deflate
import Unegg.Decryptor.Calls
import Unegg.Extract.Entry

/-!
# Unegg.Extract.Alignment

The decryptor of an entry from block to block.

Every decompressor decrypts what it reads, once and in order, so after a block
the decryptor has gone over what has been read of it.  Where the decoders of
the earlier blocks have read them to the end, the decryptor stands where
decrypting all of them would leave it, and a block is decrypted as in a solid
archive (`decryptor_aligned`).  Stored and LZMA blocks are always read to the
end; the end of the other streams may come before.
-/

namespace Unegg

open Prog Coder

/-- What the crates do with their source: `lzma_rs` has only the stream it is
given, and `libazo` has what it reads decrypted, once and in order. -/
structure Crates.DecryptsReads (crates : Crates) : Prop where
  lzma : ∀ stream memlimit, (crates.lzma stream memlimit).WritesOnly
  azo : ∀ {δ σ : Type} (dec : List UInt8 → δ → List UInt8 × δ) (w : ByteSink IoError σ)
    size maxOutput, Pipes dec w (crates.azo size maxOutput true)

variable {crates : Crates} {δ σ : Type} {dec : List UInt8 → δ → List UInt8 × δ}
  {w : ByteSink IoError σ}

/-! ## the decompressors -/

/-- Reading and decrypting. -/
theorem pipes_readDecrypt {α : Type} (n : Nat) {k : List UInt8 → Decode α}
    (hk : ∀ bs, Pipes dec w (k bs)) :
    Pipes dec w (Decode.readExact n >>= fun buf => Decode.decrypt buf >>= k) := by
  intro io a io' h
  change Run.run (Coder.run dec w (Coder.bind _ (if (io.rest.take n).length < n then _ else _)))
    { io with rest := io.rest.drop n } = _ at h
  change io.rest = handed dec w (Coder.bind _ (if (io.rest.take n).length < n then _ else _))
    { io with rest := io.rest.drop n } ++ _
  split at h
  · simp [Coder.bind, Coder.run] at h
  · next hlong =>
      rw [if_neg hlong]
      have hrest := hk _ _ _ _ h
      change io.rest = io.rest.take n ++ handed dec w (k _) _ ++ io'.rest
      rw [List.append_assoc, ← hrest, List.take_append_drop]

/-- Writing all of some bytes only writes. -/
theorem writesOnly_writeAll (bs : List UInt8) : (Decode.writeAll bs).WritesOnly := by
  intro n r
  cases r <;> trivial

/-- Writing reads nothing that it would have to hand over. -/
theorem pipes_writeAll (bs : List UInt8) : Pipes dec w (Decode.writeAll bs) :=
  (writesOnly_writeAll bs).pipes

/-- Stored data is decrypted as it is read. -/
theorem pipes_extractStore (size : Nat) : Pipes dec w (extractStore size) := by
  refine .loop (fun p => ?_) _ _
  rw [storeStep]
  split
  · exact .ret _
  · exact pipes_readDecrypt _ fun buf => .bind (pipes_writeAll _) fun _ => .ret _

/-- The Deflate loop decrypts each buffer as it is read. -/
theorem pipes_extractDeflate (size : Nat) : Pipes dec w (extractDeflate crates size) := by
  refine .loop (fun s => ?_) _ _
  rw [deflateStep]
  refine .bind ?_ fun s => ?_
  · rw [refill]
    split
    · exact pipes_readDecrypt _ fun buf => .ret _
    · exact .ret _
  · split
    · exact .fail _
    · refine .bind ?_ fun _ => .ret _
      rw [Decode.writeSome]
      split
      · exact pipes_writeAll _
      · exact .ret _

/-- Pulling decrypts what the decoder asks for. -/
theorem pipes_pull {α : Type} (limit : Nat) (p : Pull α) : Pipes dec w (pull limit p) := by
  induction p generalizing limit with
  | ret a => exact .ret _
  | read n k ih =>
      intro io a io' h
      change Run.run (Coder.run dec w (if io.rest.take (min n limit) = [] then _ else _))
        { io with rest := io.rest.drop (min n limit) } = _ at h
      change io.rest = handed dec w (if io.rest.take (min n limit) = [] then _ else _)
        { io with rest := io.rest.drop (min n limit) } ++ _
      split at h
      · next hnil =>
          rw [if_pos hnil, ← ih [] limit _ _ _ h]
          have hall := List.take_append_drop (min n limit) io.rest
          rw [hnil, List.nil_append] at hall
          exact hall.symm
      · next hne =>
          rw [if_neg hne]
          change io.rest = io.rest.take (min n limit) ++ handed dec w (pull _ _) _ ++ io'.rest
          rw [List.append_assoc, ← ih _ _ _ _ _ h, List.take_append_drop]

/-- The bzip2 loop decrypts what the decoder asks for. -/
theorem pipes_extractBzip2 (size : Nat) : Pipes dec w (extractBzip2 crates size) := by
  refine .loop (fun s => ?_) _ _
  rw [bzip2Step]
  refine .bind (pipes_pull _ _) fun pulled => ?_
  obtain ⟨⟨result, decoder⟩, limit⟩ := pulled
  cases result with
  | error e => exact .fail _
  | ok buf =>
      dsimp only
      split
      · exact .ret _
      · exact .bind (pipes_writeAll _) fun _ => .ret _

/-- The data of an LZMA block, behind its header. -/
theorem pipes_readUpToDecrypt {α : Type} (n : Nat) (e : EggError) {k : List UInt8 → Decode α}
    (hk : ∀ bs, Pipes dec w (k bs)) : Pipes dec w (Decode.readUpTo n >>= fun data =>
      if data.length ≠ n then .fail e else Decode.decrypt data >>= k) := by
  intro io a io' h
  change Run.run (Coder.run dec w (if (io.rest.take n).length ≠ n then _ else _))
    { io with rest := io.rest.drop n } = _ at h
  change io.rest = handed dec w (if (io.rest.take n).length ≠ n then _ else _)
    { io with rest := io.rest.drop n } ++ _
  split at h
  · simp [Coder.run] at h
  · next hlong =>
      rw [if_neg hlong]
      have hrest := hk _ _ _ _ h
      change io.rest = io.rest.take n ++ handed dec w (k _) _ ++ io'.rest
      rw [List.append_assoc, ← hrest, List.take_append_drop]

/-- The LZMA decoder reads through the decryptor. -/
theorem pipes_extractLzma (hcrates : crates.DecryptsReads) (size maxOutput : Nat) :
    Pipes dec w (extractLzma crates size maxOutput) := by
  rw [extractLzma]
  split
  · exact .fail _
  · refine pipes_readDecrypt _ fun header => pipes_readUpToDecrypt _ _ fun data => ?_
    exact .bind ((hcrates.lzma _ _).mapErr.tally _).pipes fun _ => .ret _

/-- **Every decompressor decrypts what it reads.** -/
theorem pipes_decompress (hcrates : crates.DecryptsReads) (method : CompressionMethod)
    (size maxOutput : Nat) : Pipes dec w (decompress crates method size maxOutput true) := by
  cases method with
  | store => exact pipes_extractStore _
  | deflate => exact pipes_extractDeflate _
  | bzip2 => exact pipes_extractBzip2 _
  | lzma => exact pipes_extractLzma hcrates _ _
  | azo => exact (hcrates.azo _ _ _ _).mapErr
  | unknown n => exact .fail _

/-! ## blocks that are read to the end -/

section Reads

variable {io io' : Io δ σ} {n : Nat} {bs : List UInt8}

/-- A read takes its bytes off the input. -/
theorem readExact_rest (h : ((Decode.readExact n).run dec w).run io = (.ok bs, io')) :
    io'.rest = io.rest.drop n := by
  change Run.run (Coder.run dec w (if (io.rest.take n).length < n then _ else _))
    { io with rest := io.rest.drop n } = _ at h
  split at h
  · simp [Coder.run] at h
  · simp only [Coder.run, Run.pure_run, Prod.mk.injEq] at h
    rw [← h.2]

/-- Decrypting takes nothing off it. -/
theorem decrypt_rest {buf : List UInt8}
    (h : ((Decode.decrypt bs).run dec w).run io = (.ok buf, io')) : io'.rest = io.rest := by
  simp only [Decode.decrypt, Coder.run, Run.pure_run, Prod.mk.injEq] at h
  rw [← h.2]

/-- What only writes takes nothing off the input. -/
theorem writesOnly_rest {α : Type} {t : Decode α} {a : α} (ht : t.WritesOnly)
    (h : (t.run dec w).run io = (.ok a, io')) : io'.rest = io.rest := by
  have hrest : ((t.run dec w).run io).2.rest = io.rest := (ht.run io).2
  rwa [h] at hrest

/-- A stored block is copied as a whole. -/
theorem extractStore_rest {crc : UInt32}
    (h : ((extractStore n).run dec w).run io = (.ok crc, io')) : io'.rest = io.rest.drop n := by
  suffices hloop : ∀ k remaining hasher io,
      ((Coder.loop storeStep k (remaining, hasher)).run dec w).run io = (.ok crc, io') →
      io'.rest = io.rest.drop remaining from hloop _ _ _ _ h
  intro k
  induction k with
  | zero =>
      intro remaining hasher io h
      simp [Coder.loop, Coder.run] at h
  | succ k ih =>
      intro remaining hasher io h
      rw [Coder.loop, run_bind, Run.bind_ok] at h
      obtain ⟨f, io₁, hstep, h⟩ := h
      rw [storeStep] at hstep
      split at hstep
      · next hzero =>
          obtain ⟨hf, rfl⟩ := Prod.mk.injEq .. ▸ hstep
          obtain rfl := Outcome.ok.inj hf
          obtain ⟨-, rfl⟩ := Prod.mk.injEq .. ▸ h
          rw [hzero, List.drop_zero]
      · dsimp only at hstep
        rw [run_bind, Run.bind_ok] at hstep
        obtain ⟨buf, io₂, hread, hstep⟩ := hstep
        rw [run_bind, Run.bind_ok] at hstep
        obtain ⟨buf', io₃, hdecrypt, hstep⟩ := hstep
        rw [run_bind, Run.bind_ok] at hstep
        obtain ⟨_, io₄, hwrite, hstep⟩ := hstep
        obtain ⟨hf, rfl⟩ := Prod.mk.injEq .. ▸ hstep
        obtain rfl := Outcome.ok.inj hf
        rw [ih _ _ _ h, writesOnly_rest (writesOnly_writeAll _) hwrite, decrypt_rest hdecrypt,
          readExact_rest hread, List.drop_drop]
        congr 1
        omega

/-- An LZMA block is read to its end. -/
theorem extractLzma_rest (hcrates : crates.DecryptsReads) {maxOutput : Nat} {crc : UInt32}
    (h : ((extractLzma crates n maxOutput).run dec w).run io = (.ok crc, io')) :
    io'.rest = io.rest.drop n := by
  rw [extractLzma] at h
  split at h
  · simp [Coder.run] at h
  · next hlong =>
    rw [run_bind, Run.bind_ok] at h
    obtain ⟨header, io₁, hheader, h⟩ := h
    rw [run_bind, Run.bind_ok] at h
    obtain ⟨header', io₂, hdecrypt, h⟩ := h
    rw [run_bind, Run.bind_ok] at h
    obtain ⟨data, io₃, hdata, h⟩ := h
    simp only [Decode.readUpTo, Coder.run, Run.pure_run, Prod.mk.injEq] at hdata
    split at h
    · simp [Coder.run] at h
    · rw [run_bind, Run.bind_ok] at h
      obtain ⟨data', io₄, hdecrypt', h⟩ := h
      dsimp only at h
      rw [run_bind, Run.bind_ok] at h
      obtain ⟨p, io₅, hlzma, h⟩ := h
      obtain ⟨-, rfl⟩ := Prod.mk.injEq .. ▸ h
      rw [writesOnly_rest ((hcrates.lzma _ _).mapErr.tally _) hlzma, decrypt_rest hdecrypt',
        ← hdata.2, decrypt_rest hdecrypt, readExact_rest hheader, List.drop_drop]
      have hsum : 9 + (n - 9) = n := by omega
      rw [hsum]

end Reads

/-! ## from block to block -/

/-- The methods whose streams can end before their block does. -/
def CompressionMethod.EndsEarly (method : CompressionMethod) : Prop :=
  method = .deflate ∨ method = .bzip2 ∨ method = .azo

/-- The decoder of a block, when it ends, has read all of it. -/
def ReadsWhole (crates : Crates) (os : Os) (archive : EggArchive) (out : Target) (block : EggBlock)
    (p : Option Decryptor × World) : Prop :=
  let decode := decompress crates block.compressionMethod block.compressedSize.toNat
    block.uncompressedSize.toNat p.1.isSome
  ((decode.run (decryptSome crates) (limitWriter (os.sink out))).run
    (blockIo archive block p)).2.rest = []

section Blocks

variable {os : Os} {archive : EggArchive} {out : Target} {block : EggBlock} {crc : UInt32}
  {p p' : Option Decryptor × World} {password : Option String} {entry : EggFileEntry}

/-- A block was decompressed by a run of its decoder. -/
theorem decompressBlock_run (h : (decompressBlock crates os archive out block).run p = (.ok crc, p')) :
    ∃ io, ((decompress crates block.compressionMethod block.compressedSize.toNat
        block.uncompressedSize.toNat p.1.isSome).run (decryptSome crates)
        (limitWriter (os.sink out))).run (blockIo archive block p) = (.ok crc, io) ∧
      io.crypto = p'.1 := by
  simp only [decompressBlock, Prod.mk.injEq] at h
  exact ⟨_, Prod.ext h.1 rfl, congrArg Prod.fst h.2⟩

/-- Stored and LZMA blocks are read to the end. -/
theorem readsWhole_of_decompressBlock (hcrates : crates.DecryptsReads)
    (h : (decompressBlock crates os archive out block).run p = (.ok crc, p'))
    (hmethod : ¬ block.compressionMethod.EndsEarly) :
    ReadsWhole crates os archive out block p := by
  obtain ⟨io, hrun, -⟩ := decompressBlock_run h
  have htaken : (blockIo archive block p).rest.drop block.compressedSize.toNat = [] := by
    simp [blockIo]
  rw [ReadsWhole, hrun]
  cases hm : block.compressionMethod with
  | store =>
      rw [hm] at hrun
      rw [extractStore_rest hrun, htaken]
  | lzma =>
      rw [hm] at hrun
      rw [extractLzma_rest hcrates hrun, htaken]
  | deflate | bzip2 | azo => simp [hm, CompressionMethod.EndsEarly] at hmethod
  | unknown n => simp [hm, decompress, Coder.run] at hrun

/-- After a block that was read to the end, the decryptor has gone over all of it. -/
theorem decompressBlock_crypto (hcrates : crates.DecryptsReads)
    (h : (decompressBlock crates os archive out block).run p = (.ok crc, p'))
    (hreads : block.compressionMethod.EndsEarly → ReadsWhole crates os archive out block p) :
    p'.1 = (decryptSome crates (blockData archive block) p.1).2 := by
  have hwhole : ReadsWhole crates os archive out block p := by
    by_cases hm : block.compressionMethod.EndsEarly
    · exact hreads hm
    · exact readsWhole_of_decompressBlock hcrates h hm
  obtain ⟨io, hrun, hcrypto⟩ := decompressBlock_run h
  have hstate := crypto_run (decryptSome crates) (limitWriter (os.sink out))
    (fun d => by cases d <;> simp [decryptSome, Decryptor.decrypt_nil])
    (fun xs ys d => by rw [decryptSome_append])
    (decompress crates block.compressionMethod block.compressedSize.toNat
      block.uncompressedSize.toNat p.1.isSome) (blockIo archive block p)
  rw [hrun] at hstate
  rw [← hcrypto, hstate]
  obtain ⟨d, w⟩ := p
  cases d with
  | none => rfl
  | some d =>
      have hpipes := pipes_decompress hcrates _ _ _ _ _ _ hrun
      rw [ReadsWhole] at hwhole
      dsimp only at hwhole
      rw [hrun] at hwhole
      rw [hwhole, List.append_nil] at hpipes
      exact congrArg (fun bs => (decryptSome crates bs (some d)).2) hpipes.symm

/-- Every block of a run whose stream can end early is read to the end. -/
def AllReadWhole (crates : Crates) (os : Os) (archive : EggArchive) (out : Target)
    (blocks : List EggBlock) (p : Option Decryptor × World) : Prop :=
  ∀ before block after q, blocks = before ++ block :: after →
    (Run.forEach (extractBlock crates os archive out) before).run p = (.ok (), q) →
    block.compressionMethod.EndsEarly → ReadsWhole crates os archive out block q

/-- Behind blocks read whole the decryptor has seen all of their data. -/
theorem blockLoop_crypto (hcrates : crates.DecryptsReads) {blocks : List EggBlock}
    (hreads : AllReadWhole crates os archive out blocks p)
    (h : (Run.forEach (extractBlock crates os archive out) blocks).run p = (.ok (), p')) :
    p'.1 = (decryptSome crates (blocks.flatMap (blockData archive)) p.1).2 := by
  induction blocks generalizing p with
  | nil =>
      simp only [Run.forEach, Run.pure_run, Prod.mk.injEq, true_and] at h
      rw [← h]
      rcases p with ⟨_ | d, w⟩ <;> simp [decryptSome, Decryptor.decrypt_nil]
  | cons block blocks ih =>
      rw [Run.forEach, Run.bind_ok] at h
      obtain ⟨_, p₁, hfirst, hrest⟩ := h
      have hblock : (extractBlock crates os archive out block).run p = (.ok (), p₁) := hfirst
      rw [extractBlock, Run.bind_ok] at hfirst
      obtain ⟨crc, p₂, hcrc, hcheck⟩ := hfirst
      split at hcheck
      · simp at hcheck
      · obtain ⟨-, rfl⟩ := Prod.mk.injEq .. ▸ hcheck
        have hstate := decompressBlock_crypto hcrates hcrc (hreads [] block blocks p rfl rfl)
        rw [List.flatMap_cons, decryptSome_append, ← hstate]
        refine ih (fun before b after q hsplit hbefore => ?_) hrest
        exact hreads (block :: before) b after q (by rw [hsplit]; rfl)
          (by rw [Run.forEach, Run.bind_of_ok hblock, hbefore])

/-- **Alignment**: where the earlier blocks have been read to the end, the
decryptor stands behind them, and the block is decrypted as it is when the
blocks of the entry are decrypted as one. -/
theorem decryptor_aligned (hcrates : crates.DecryptsReads) {earlier later : List EggBlock}
    {w w' : World} {d : Option Decryptor} (hblocks : entry.blocks = earlier ++ block :: later)
    (hrun : (Run.forEach (extractBlock crates os archive out) earlier).run
      (freshDecryptor crates password entry, w) = (.ok (), (d, w')))
    (hreads : AllReadWhole crates os archive out earlier
      (freshDecryptor crates password entry, w)) :
    d = (decryptSome crates (earlier.flatMap (blockData archive))
        (freshDecryptor crates password entry)).2 ∧
      (decryptSome crates (blockData archive block) d).1 =
        ((entryStream crates archive password entry).drop
          (earlier.flatMap (blockData archive)).length).take (blockData archive block).length := by
  have hd := blockLoop_crypto hcrates hreads hrun
  refine ⟨hd, ?_⟩
  dsimp only at hd
  rw [entryStream, hblocks, List.flatMap_append, List.flatMap_cons, decryptSome_append,
    decryptSome_append, ← hd, List.drop_left' (length_decryptSome _ _),
    List.take_left' (length_decryptSome _ _)]

end Blocks

/-! ## streams that end early -/

/-- In pipe mode an entry fails with the error of its blocks. -/
theorem extractEntry_of_err {os : Os} {archive : EggArchive} {dest target : Path}
    {password : Option String} {entry : EggFileEntry} {crypto : Option FileCrypto}
    {d : Option Decryptor} {e : EggError} {w w₁ w' : World} (hjoin : safeJoin dest entry.fileName = .ok target)
    (hdir : ¬ entry.isDirectory) (hblocks : entry.blocks ≠ [])
    (hsetup : setupDecryptor crates entry password = .ok crypto)
    (hauth : ((authenticate crates entry crypto).run archive.reader).1 = .ok ())
    (hopen : (openWriter os true target).run w = (.ok .stdout, w₁))
    (hd : crypto.map FileCrypto.decryptor = d)
    (h : (extractBlocks crates os archive .stdout entry.blocks d).run w₁ = (.err e, w')) :
    (extractEntry crates os archive dest password true entry).run w = (.err e, w') := by
  subst hd
  have hreader : (onReader archive (authenticate crates entry crypto)).run w = (.ok (), w) := by
    simp only [onReader, hauth]
  rw [extractEntry, Run.bind_of_ok (Run.ofExcept_ok.mpr ⟨hjoin, rfl⟩), if_neg hdir, if_neg hblocks,
    extractData, Run.bind_of_ok (Run.ofExcept_ok.mpr ⟨hsetup, rfl⟩), Run.bind_of_ok hreader,
    Run.bind_of_ok hopen, Run.bind_of_ok (Run.attempt_of_err h)]
  rfl

/-- `flate2` on the empty stream, whatever lies behind it. -/
def emptyInflate : Inflate where
  State := Unit
  new := ()
  decompress := fun _ input _ =>
    if input.take 2 = [3, 0] then .ok ((), min 2 input.length, [], true)
    else .error "corrupt deflate stream"
  consumed_le := by
    intro s input cap s' consumed output done h
    split at h
    · simp only [Except.ok.injEq, Prod.mk.injEq] at h
      omega
    · simp at h
  produced_le := by
    intro s input cap s' consumed output done h
    split at h
    · simp only [Except.ok.injEq, Prod.mk.injEq] at h
      simp [← h.2.2.1]
    · simp at h

def Crates.emptyDeflate : Crates := { Crates.storeOnly with inflate := emptyInflate }

theorem Crates.emptyDeflate_decryptsReads : emptyDeflate.DecryptsReads where
  lzma _ _ := trivial
  azo _ _ _ _ := .fail _

/-- The empty stream with `n` bytes behind it, encrypted, and a byte of another block. -/
def paddedStream (n : Nat) : EggArchive where
  reader := ⟨[2, 0] ++ List.replicate n 0 ++ [0x61], 0⟩
  entries := []
  isEncrypted := true
  isSolid := false
  headerId := 0
  splitInfo := none

def deflateFirst (n : Nat) : EggBlock := ⟨.deflate, 0, UInt32.ofNat (2 + n), 0, 0⟩

def storedSecond (n : Nat) : EggBlock := ⟨.store, 1, 1, 0xE8B7BE43, 2 + n⟩

/-- An AES entry of these two blocks. -/
def paddedEntry (n : Nat) : EggFileEntry where
  fileName := "a"
  fileId := 0
  uncompressedSize := 1
  blocks := [deflateFirst n, storedSecond n]
  encryptInfo := some ⟨.aes128, List.replicate 10 0⟩
  fileTime := none
  fileAttr := 0
  parentId := none

/-- The decryptor the entry starts with. -/
def paddedFresh : AesCtrDecryptor := .fresh (.aes128 (List.replicate 16 0)) (List.replicate 16 0)

/-- The decryptor of the entry before its first block. -/
theorem freshDecryptor_padded (n : Nat) :
    freshDecryptor .emptyDeflate (some "") (paddedEntry n) = some (.aesCtr paddedFresh) := by
  have hentry : freshDecryptor .emptyDeflate (some "") (paddedEntry n) =
      freshDecryptor .emptyDeflate (some "") (paddedEntry 0) := rfl
  rw [hentry]
  decide +kernel

/-- With nothing behind the stream its block is read to the end, and the next one is
decrypted to its byte. -/
theorem deflateFirst_aligned : ∃ d w',
    (Run.forEach (extractBlock .emptyDeflate .obliging (paddedStream 0) .stdout) [deflateFirst 0]).run
        (freshDecryptor .emptyDeflate (some "") (paddedEntry 0), []) = (.ok (), (d, w')) ∧
      d = (decryptSome .emptyDeflate ([deflateFirst 0].flatMap (blockData (paddedStream 0)))
        (freshDecryptor .emptyDeflate (some "") (paddedEntry 0))).2 ∧
      (decryptSome .emptyDeflate [0x61] d).1 = [0x61] := by
  obtain ⟨d, w', hrun⟩ : ∃ d w', (Run.forEach (extractBlock .emptyDeflate .obliging (paddedStream 0)
      .stdout) [deflateFirst 0]).run (freshDecryptor .emptyDeflate (some "") (paddedEntry 0), []) =
      (.ok (), (d, w')) := ⟨_, _, Prod.ext (by decide +kernel) rfl⟩
  have hreads : AllReadWhole .emptyDeflate .obliging (paddedStream 0) .stdout [deflateFirst 0]
      (freshDecryptor .emptyDeflate (some "") (paddedEntry 0), []) := by
    intro before block after q hsplit hbefore _
    cases before with
    | nil =>
        obtain ⟨rfl, rfl⟩ := List.cons.inj hsplit
        obtain rfl := congrArg Prod.snd hbefore
        rw [ReadsWhole]
        decide +kernel
    | cons b before => simp at hsplit
  have hblocks : (paddedEntry 0).blocks = [deflateFirst 0] ++ storedSecond 0 :: [] := rfl
  obtain ⟨hd, -⟩ := decryptor_aligned Crates.emptyDeflate_decryptsReads hblocks hrun hreads
  refine ⟨d, w', hrun, hd, ?_⟩
  rw [hd]
  decide +kernel

/-- The decryptor when 4096 bytes have been read. -/
def paddedBehind : AesCtrDecryptor := (AesCtrDecryptor.usedBlock .emptyDeflate)^[256] paddedFresh

/-- Behind one buffer 256 blocks of the keystream are used up. -/
theorem decrypt_padded {data : List UInt8} (hlen : data.length = 4096) :
    (decryptSome .emptyDeflate data (some (.aesCtr paddedFresh))).2 =
      some (.aesCtr paddedBehind) := by
  rw [decryptSome, Decryptor.decrypt]
  dsimp only
  rw [AesCtrDecryptor.decrypt_blocks 256 hlen rfl]
  rfl

/-- Of a longer stream one buffer is read, if the decoder finds its end there. -/
theorem extractDeflate_padded {front back : List UInt8} (hlen : front.length = 4096)
    (hhead : (decryptSome .emptyDeflate front (some (.aesCtr paddedFresh))).1.take 2 = [3, 0])
    (p : World × Nat) :
    ((extractDeflate .emptyDeflate (4096 + back.length)).run (decryptSome .emptyDeflate)
        (limitWriter (Os.obliging.sink .stdout))).run ⟨front ++ back, some (.aesCtr paddedFresh), p⟩ =
      (.ok 0, ⟨back, some (.aesCtr paddedBehind), p⟩) := by
  have hrefill := refill_run (w := limitWriter (Os.obliging.sink .stdout))
    (⟨(), [], 4096 + back.length, .new⟩ : DeflateState .emptyDeflate)
    ⟨front ++ back, some (.aesCtr paddedFresh), p⟩
  have hmin : min (4096 + back.length) 4096 = 4096 := by omega
  dsimp only at hrefill
  rw [if_pos ⟨rfl, by omega⟩, hmin, List.take_left' hlen, List.drop_left' hlen,
    if_neg (by omega), decrypt_padded hlen] at hrefill
  have hcall : Crates.emptyDeflate.inflate.decompress () (decryptSome .emptyDeflate front
      (some (.aesCtr paddedFresh))).1 4096 = .ok ((), 2, [], true) := by
    change emptyInflate.decompress () _ 4096 = _
    simp only [emptyInflate, hhead, if_true, length_decryptSome, hlen]
    rfl
  have hstep := deflateStep_run hrefill
  dsimp only at hstep
  rw [hcall] at hstep
  have hnothing : ((limitWriter (Os.obliging.sink .stdout)).writeAll []).run p = (.ok (), p) := rfl
  have hnext : ∀ (buf : List UInt8) (n : Nat), deflateNext .emptyDeflate
      ⟨(), buf, n, Crc32.Hasher.new.update []⟩ [] true = .done 0 := by
    intro buf n
    have hsum : (Crc32.Hasher.new.update []).finalize = 0 := by decide
    rw [deflateNext, if_pos rfl, hsum]
  dsimp only at hstep
  rw [hnothing] at hstep
  dsimp only at hstep
  rw [hnext] at hstep
  rw [extractDeflate, Coder.run_loop]
  exact Run.loop_done hstep

/-- What is read of the first block, when two bytes of it are not. -/
def paddedFront : List UInt8 := [2, 0] ++ List.replicate 4094 0

theorem length_paddedFront : paddedFront.length = 4096 := by
  rw [paddedFront, List.length_append, List.length_replicate]
  rfl

/-- The stream is the buffer, the two bytes behind it, and the stored byte. -/
theorem paddedStream_data : (paddedStream 4096).reader.data = paddedFront ++ [0, 0] ++ [0x61] := by
  have hpad : List.replicate 4096 (0 : UInt8) = List.replicate 4094 0 ++ List.replicate 2 0 :=
    (List.replicate_append_replicate (n := 4094) (m := 2)).symm
  have hdata : (paddedStream 4096).reader.data = [2, 0] ++ List.replicate 4096 0 ++ [0x61] := rfl
  rw [hdata, hpad, ← List.append_assoc]
  rfl

/-- The first block has two bytes more than the buffer. -/
theorem blockData_first : blockData (paddedStream 4096) (deflateFirst 4096) = paddedFront ++ [0, 0] := by
  have hsize : (deflateFirst 4096).compressedSize.toNat = (paddedFront ++ [0, 0]).length := by
    rw [List.length_append, length_paddedFront]
    rfl
  rw [blockData, paddedStream_data, hsize]
  exact List.take_left' rfl

/-- The second block is the stored byte. -/
theorem blockData_second : blockData (paddedStream 4096) (storedSecond 4096) = [0x61] := by
  have hpos : (storedSecond 4096).dataPos = (paddedFront ++ [0, 0]).length := by
    rw [List.length_append, length_paddedFront]
    rfl
  rw [blockData, paddedStream_data, hpos, List.drop_left' rfl]
  rfl

/-- The first block is extracted, and the decryptor stands two bytes behind. -/
theorem deflateFirst_run (w : World) :
    (extractBlock .emptyDeflate .obliging (paddedStream 4096) .stdout (deflateFirst 4096)).run
      (some (.aesCtr paddedFresh), w) = (.ok (), (some (.aesCtr paddedBehind), w)) := by
  have hhead : (decryptSome .emptyDeflate paddedFront (some (.aesCtr paddedFresh))).1.take 2 =
      [3, 0] := by
    have htwo : (decryptSome .emptyDeflate [2, 0] (some (.aesCtr paddedFresh))).1.length = 2 :=
      length_decryptSome _ _
    rw [paddedFront, decryptSome_append]
    dsimp only
    rw [List.take_left' htwo]
    decide +kernel
  have hio : blockIo (paddedStream 4096) (deflateFirst 4096) (some (.aesCtr paddedFresh), w) =
      ⟨paddedFront ++ [0, 0], some (.aesCtr paddedFresh), (w, 0)⟩ := by
    rw [← blockData_first]
    rfl
  have hsize : (deflateFirst 4096).compressedSize.toNat = 4096 + [(0 : UInt8), 0].length := by decide
  have hrun := @extractDeflate_padded paddedFront [0, 0] length_paddedFront hhead (w, 0)
  have hblock : (decompressBlock .emptyDeflate .obliging (paddedStream 4096) .stdout
      (deflateFirst 4096)).run (some (.aesCtr paddedFresh), w) =
      (.ok 0, (some (.aesCtr paddedBehind), w)) := by
    have hmethod : decompress .emptyDeflate (deflateFirst 4096).compressionMethod
        (deflateFirst 4096).compressedSize.toNat (deflateFirst 4096).uncompressedSize.toNat true =
        extractDeflate .emptyDeflate (4096 + [(0 : UInt8), 0].length) := by
      rw [hsize]
      rfl
    simp only [decompressBlock, Option.isSome_some, hmethod, hio, hrun]
  rw [extractBlock, Run.bind_of_ok hblock]
  rfl

/-- The second block is decrypted with the part of the keystream that was meant for the
end of the first, and fails its checksum. -/
theorem paddedEntry_blocks :
    (extractBlocks .emptyDeflate .obliging (paddedStream 4096) .stdout (paddedEntry 4096).blocks
      (some (.aesCtr paddedFresh))).run [.stdout] =
      (.err (.invalidFileCrc 0xE8B7BE43 0x9FB08ED5), [.stdout, .write .stdout [0x60]]) := by
  have hio : blockIo (paddedStream 4096) (storedSecond 4096) (some (.aesCtr paddedBehind), [.stdout]) =
      ⟨[0x61], some (.aesCtr paddedBehind), ([.stdout], 1)⟩ := by
    rw [← blockData_second]
    rfl
  have hblocks : (paddedEntry 4096).blocks = [deflateFirst 4096, storedSecond 4096] := rfl
  rw [extractBlocks, hblocks]
  dsimp only
  rw [Run.forEach, Run.bind_of_ok (deflateFirst_run _), Run.forEach]
  simp only [Run.bind_run, extractBlock, decompressBlock, hio]
  decide +kernel

/-- The password is accepted. -/
theorem paddedEntry_setup : setupDecryptor .emptyDeflate (paddedEntry 4096) (some "") =
    .ok (some ⟨.aesCtr paddedFresh, none⟩) := by
  decide +kernel

/-- The entry fails with its second block. -/
theorem paddedEntry_run :
    (extractEntry .emptyDeflate .obliging (paddedStream 4096) [.normal "out"] (some "") true
      (paddedEntry 4096)).run [] =
      (.err (.invalidFileCrc 0xE8B7BE43 0x9FB08ED5), [.stdout, .write .stdout [0x60]]) := by
  have hjoin : safeJoin [.normal "out"] (paddedEntry 4096).fileName =
      .ok [.normal "out", .normal "a"] := by decide +kernel
  have hdir : ¬ (paddedEntry 4096).isDirectory := by decide
  have hne : (paddedEntry 4096).blocks ≠ [] := by decide
  have hauth : ((authenticate .emptyDeflate (paddedEntry 4096)
      (some ⟨.aesCtr paddedFresh, none⟩)).run (paddedStream 4096).reader).1 = .ok () := rfl
  have hopen : (openWriter .obliging true [.normal "out", .normal "a"]).run [] =
      (.ok .stdout, [.stdout]) := rfl
  have hd : (some ⟨.aesCtr paddedFresh, none⟩ : Option FileCrypto).map FileCrypto.decryptor =
      some (.aesCtr paddedFresh) := rfl
  exact extractEntry_of_err hjoin hdir hne paddedEntry_setup hauth hopen hd paddedEntry_blocks

/-- Two bytes of the first block are never decrypted; the second block is then decrypted
with the wrong part of the keystream, and fails its checksum. -/
theorem deflateFirst_misaligned :
    Crates.emptyDeflate.DecryptsReads ∧
    (extractEntry .emptyDeflate .obliging (paddedStream 4096) [.normal "out"] (some "") true
      (paddedEntry 4096)).run [] =
        (.err (.invalidFileCrc 0xE8B7BE43 0x9FB08ED5), [.stdout, .write .stdout [0x60]]) ∧
    ∃ d, (Run.forEach (extractBlock .emptyDeflate .obliging (paddedStream 4096) .stdout)
        [deflateFirst 4096]).run
        (freshDecryptor .emptyDeflate (some "") (paddedEntry 4096), [.stdout]) =
          (.ok (), (d, [.stdout])) ∧
      d ≠ (decryptSome .emptyDeflate ([deflateFirst 4096].flatMap (blockData (paddedStream 4096)))
        (freshDecryptor .emptyDeflate (some "") (paddedEntry 4096))).2 ∧
      (decryptSome .emptyDeflate [0x61] d).1 = [0x60] ∧
      (entryStream .emptyDeflate (paddedStream 4096) (some "") (paddedEntry 4096)).drop 4098 =
        [0x61] := by
  have hall : ∀ bs, (decryptSome .emptyDeflate (paddedFront ++ bs) (some (.aesCtr paddedFresh))) =
      ((decryptSome .emptyDeflate paddedFront (some (.aesCtr paddedFresh))).1 ++
          (decryptSome .emptyDeflate bs (some (.aesCtr paddedBehind))).1,
        (decryptSome .emptyDeflate bs (some (.aesCtr paddedBehind))).2) := by
    intro bs
    rw [decryptSome_append, decrypt_padded length_paddedFront]
  refine ⟨Crates.emptyDeflate_decryptsReads, ?_, some (.aesCtr paddedBehind), ?_, ?_, ?_, ?_⟩
  · exact paddedEntry_run
  · rw [freshDecryptor_padded, Run.forEach, Run.bind_of_ok (deflateFirst_run _), Run.forEach,
      Run.pure_run]
  · have hdata : [deflateFirst 4096].flatMap (blockData (paddedStream 4096)) = paddedFront ++ [0, 0] := by
      rw [List.flatMap_cons, List.flatMap_nil, List.append_nil, blockData_first]
    rw [freshDecryptor_padded, hdata, hall]
    decide +kernel
  · decide +kernel
  · have hdata : (paddedEntry 4096).blocks.flatMap (blockData (paddedStream 4096)) =
        paddedFront ++ [0, 0, 0x61] := by
      have hblocks : (paddedEntry 4096).blocks = [deflateFirst 4096, storedSecond 4096] := rfl
      rw [hblocks, List.flatMap_cons, List.flatMap_cons, List.flatMap_nil, blockData_first,
        blockData_second, List.append_nil, List.append_assoc]
      rfl
    have hfront : (decryptSome .emptyDeflate paddedFront (some (.aesCtr paddedFresh))).1.length =
        4096 := (length_decryptSome _ _).trans length_paddedFront
    rw [entryStream, freshDecryptor_padded, hdata, hall]
    dsimp only
    rw [List.drop_append, hfront, List.drop_eq_nil_of_le (by rw [hfront]; omega)]
    decide +kernel

end Unegg
