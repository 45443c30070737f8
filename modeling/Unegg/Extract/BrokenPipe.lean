import Unegg.Decompress.Checksum
import Unegg.Extract.Selection

/-!
# Unegg.Extract.BrokenPipe

A closed output pipe, in pipe mode.

`Os.LeftOpen` compares a system with the same one whose output stays open.  An
extraction goes the same way on both, or fails where the pipe is closed with
what the decompressor at work makes of the failure (`Reports`).  LZMA and AZO
keep only its text, so the error is recognised if and only if the method is
another one (`closed_pipe_recognised`).
-/

namespace Unegg

open Prog

variable {crates : Crates} {os os' : Os} {archive : EggArchive} {entries : List EggFileEntry}
  {dest : Path} {password : Option String} {filter : Option (List String)} {entry : EggFileEntry}
  {w : World}

/-! ## closed and open -/

/-- The error of a write to a closed pipe. -/
def IoError.IsClosed (e : IoError) : Prop := e.kind = .brokenPipe

/-- `os` fails only where an output is a closed pipe, and `os'` is `os` with the
pipe left open. -/
structure Os.LeftOpen (os os' : Os) : Prop where
  createDirAll : os'.createDirAll = os.createDirAll
  create : os'.create = os.create
  writes : ∀ w t bs, ∃ n, os'.write w t bs = .ok n
  flushes : ∀ w t, os'.flush w t = none
  write : ∀ w t bs, os.write w t bs = os'.write w t bs ∨
    ∃ e, os.write w t bs = .error e ∧ e.IsClosed
  flush : ∀ w t, os.flush w t = os'.flush w t ∨ ∃ e, os.flush w t = some e ∧ e.IsClosed

/-- The methods whose decompressors keep only the text of a failed write. -/
def CompressionMethod.Hides (method : CompressionMethod) : Prop := method = .lzma ∨ method = .azo

instance (method : CompressionMethod) : Decidable method.Hides :=
  inferInstanceAs (Decidable (_ ∨ _))

/-- The error of a decompressor that has met a closed pipe. -/
def ClosedError (method : CompressionMethod) (x : EggError) : Prop :=
  ∃ e, IoError.IsClosed e ∧ Reports method e x

/-- A closed pipe is recognised unless the method hides it. -/
theorem ClosedError.isBrokenPipe_iff {method : CompressionMethod} {x : EggError}
    (h : ClosedError method x) : x.isBrokenPipe ↔ ¬ method.Hides := by
  obtain ⟨e, he, hx⟩ := h
  cases method with
  | store | deflate | bzip2 =>
      obtain rfl : x = .io e := hx
      simpa [EggError.isBrokenPipe, CompressionMethod.Hides, IoError.IsClosed] using he
  | lzma | azo =>
      obtain ⟨text, rfl⟩ := hx
      simp [EggError.isBrokenPipe, CompressionMethod.Hides]
  | unknown n => exact absurd hx (by simp [Reports])

/-! ## the writers -/

/-- A write to the open pipe does what one to the closed pipe does, unless that fails. -/
theorem mends_sink (hopen : os.LeftOpen os') (t : Target) :
    Coder.Mends IoError.IsClosed (os.sink t) (os'.sink t) where
  write := by
    intro bs w
    simp only [Os.sink]
    rcases hopen.write w t bs with heq | ⟨e, hwrite, he⟩
    · exact .inl (by rw [heq])
    · exact .inr ⟨e, w, by rw [hwrite], he⟩
  flush := by
    intro w
    simp only [Os.sink]
    rcases hopen.flush w t with heq | ⟨e, hflush, he⟩
    · exact .inl (by rw [heq])
    · exact .inr ⟨e, w, by rw [hflush], he⟩

/-- The cap does not come between them. -/
theorem mends_limitWriter {σ : Type} {P : IoError → Prop} {v v' : ByteSink IoError σ}
    (h : Coder.Mends P v v') : Coder.Mends P (limitWriter v) (limitWriter v') where
  write := by
    intro bs p
    simp only [limitWriter]
    split
    · exact .inl rfl
    · rcases h.write bs p.1 with heq | ⟨e, s, hwrite, he⟩
      · exact .inl (by rw [heq])
      · exact .inr ⟨e, (s, p.2), by rw [hwrite], he⟩
  flush := by
    intro p
    simp only [limitWriter]
    rcases h.flush p.1 with heq | ⟨e, s, hflush, he⟩
    · exact .inl (by rw [heq])
    · exact .inr ⟨e, (s, p.2), by rw [hflush], he⟩

namespace SolidSink

variable {cfg : SinkConfig}

theorem orFails_call {α : Type} {P : IoError → Prop} {m m' : Run World IoError α}
    (h : Run.OrFails P m m') : Run.OrFails P (call m) (call m') := by
  intro p
  simp only [call, Run.zoom]
  rcases h p.2 with heq | ⟨e, s, hrun, he⟩
  · exact .inl (by rw [heq])
  · exact .inr ⟨e, (p.1, s), by rw [hrun], he⟩

/-- In pipe mode no output has to be created. -/
theorem ensureFileOpen_pipe (hpipe : cfg.pipeMode = true) (os os' : Os) :
    ensureFileOpen os cfg = ensureFileOpen os' cfg := by
  simp only [ensureFileOpen, openOutput, hpipe, if_true]

/-- Passing full files in a pipe asks the system for nothing. -/
theorem advanceFullFiles_pipe (hpipe : cfg.pipeMode = true) (os os' : Os) :
    advanceFullFiles os cfg = advanceFullFiles os' cfg := by
  have hstep : advanceStep os cfg = advanceStep os' cfg := by
    funext u
    simp only [advanceStep, ensureFileOpen_pipe hpipe os os']
  rw [advanceFullFiles, advanceFullFiles, hstep]

/-- A chunk is written alike, or the pipe is closed. -/
theorem orFails_writeChunk (hopen : os.LeftOpen os') (chunk : List UInt8) :
    Run.OrFails IoError.IsClosed (writeChunk os chunk) (writeChunk os' chunk) := by
  refine .bind (.refl _) fun _ => .bind (.refl _) fun s => .bind (orFails_call ?_) fun _ => .refl _
  cases s.writer with
  | none => exact .refl _
  | some t => exact (mends_sink hopen t).writeAll chunk

/-- A pass writes alike, or the pipe is closed. -/
theorem orFails_writeStep (hopen : os.LeftOpen os') (hpipe : cfg.pipeMode = true)
    (rest : List UInt8) :
    Run.OrFails IoError.IsClosed (writeStep os cfg rest) (writeStep os' cfg rest) := by
  rw [writeStep, writeStep, advanceFullFiles_pipe hpipe os os', ensureFileOpen_pipe hpipe os os']
  refine .ite (.refl _) (.bind (.refl _) fun _ => .bind (.refl _) fun s => ?_)
  dsimp only
  split
  · exact .refl _
  · split
    · exact .refl _
    · refine .bind (.refl _) fun _ => .ite (.refl _) ?_
      exact .bind (orFails_writeChunk hopen _) fun _ => .refl _

/-- The sink over an open pipe mends the one over a closed pipe. -/
theorem mends_solidSink (hopen : os.LeftOpen os') (hpipe : cfg.pipeMode = true) :
    Coder.Mends IoError.IsClosed (sink os cfg) (sink os' cfg) where
  write := fun buf => .bind (.loop (orFails_writeStep hopen hpipe) _ _) fun _ => .refl _
  flush := by
    refine .bind (.refl _) fun s => ?_
    split
    · exact orFails_call (mends_sink hopen _).flush
    · exact .refl _

end SolidSink

/-! ## a solid archive -/

/-- The stream is decoded alike, or fails as its codec reports. -/
theorem orFails_decompressInto {cfg : SinkConfig} {decode : Decode Unit}
    {G : IoError → EggError → Prop} (hopen : os.LeftOpen os') (hpipe : cfg.pipeMode = true)
    (hdecode : decode.StopsWith G) (stream : List UInt8) :
    Run.OrFails (fun x => ∃ e, IoError.IsClosed e ∧ G e x) (decompressInto os cfg decode stream)
      (decompressInto os' cfg decode stream) := by
  rw [decompressInto, decompressInto, SolidSink.finish, SolidSink.finish,
    SolidSink.advanceFullFiles_pipe hpipe os os']
  refine .bind (fun p => ?_) fun _ => .refl _
  rcases hdecode.run_orFails Prod.mk (SolidSink.mends_solidSink hopen hpipe)
    { rest := stream, crypto := (), out := p } with heq | ⟨x, io, hrun, hx⟩
  · exact .inl (by dsimp only; rw [heq])
  · exact .inr ⟨x, io.out, by dsimp only; rw [hrun], hx⟩

/-- A stream is extracted alike, or fails over the pipe. -/
theorem orFails_extractStream (hcrates : crates.StopsOnError) (hopen : os.LeftOpen os')
    (spans : Spans) : Run.OrFails (ClosedError (solidMethod entries))
      (extractStream crates os archive entries dest password true filter spans)
      (extractStream crates os' archive entries dest password true filter spans) := by
  refine .bind (.refl _) fun stream w => ?_
  rcases orFails_decompressInto hopen
    (rfl : (SinkConfig.mk spans.fileSpans spans.crcSpans entries dest filter true).pipeMode = true)
    (stops_decompressSolid hcrates (solidMethod entries) stream.length
      ((spans.crcSpans.map Prod.fst).sum % 2 ^ 64)) stream (.new, w) with heq | ⟨x, ⟨s, w'⟩, hrun, hx⟩
  · refine .inl ?_
    simp only [Run.bind_run, withSink, Run.attempt, heq]
  · refine .inr ⟨x, w', ?_, hx⟩
    simp only [Run.bind_run, withSink, Run.attempt, hrun]
    rfl

/-- The scan in pipe mode asks the system for nothing. -/
theorem scanEntries_pipe (os os' : Os) (es : List (EggFileEntry × Nat)) (spans : Spans) :
    scanEntries os dest true filter es spans = scanEntries os' dest true filter es spans := by
  induction es generalizing spans with
  | nil => rfl
  | cons p es ih =>
      have hentry : scanEntry os dest true filter p.1 p.2 spans =
          scanEntry os' dest true filter p.1 p.2 spans := by
        simp [scanEntry, makeDirectory]
      rw [scanEntries, scanEntries, hentry]
      exact bind_congr ih

/-- A solid archive is extracted alike, or fails over the pipe. -/
theorem orFails_extractAllSolid (hcrates : crates.StopsOnError) (hopen : os.LeftOpen os') :
    Run.OrFails (ClosedError (solidMethod entries))
      (extractAllSolid crates os archive entries dest password true filter)
      (extractAllSolid crates os' archive entries dest password true filter) := by
  rw [extractAllSolid, extractAllSolid, scanEntries_pipe os os']
  refine .bind (.refl _) fun spans => .bind ?_ fun _ => .refl _
  exact .ite (orFails_extractStream hcrates hopen spans) (.refl _)

/-! ## entry by entry -/

/-- An entry that is extracted from `w` on stops with `x` at one of its blocks,
behind others that went through. -/
def StopsAtBlock (crates : Crates) (os : Os) (archive : EggArchive) (password : Option String)
    (entry : EggFileEntry) (w : World) (block : EggBlock) (x : EggError) : Prop :=
  ∃ crypto earlier later p, setupDecryptor crates entry password = .ok crypto ∧
    entry.blocks = earlier ++ block :: later ∧
    (Run.forEach (extractBlock crates os archive .stdout) earlier).run
      (crypto.map FileCrypto.decryptor, w ++ [.stdout]) = (.ok (), p) ∧
    ((extractBlock crates os archive .stdout block).run p).1 = .err x

/-- A block is extracted alike, or fails over the pipe. -/
theorem orFails_extractBlock (hcrates : crates.StopsOnError) (hopen : os.LeftOpen os')
    (block : EggBlock) : Run.OrFails (ClosedError block.compressionMethod)
      (extractBlock crates os archive .stdout block)
      (extractBlock crates os' archive .stdout block) := by
  refine .bind (fun p => ?_) fun crc => .refl _
  rcases (stops_decompress hcrates block.compressionMethod block.compressedSize.toNat
    block.uncompressedSize.toNat p.1.isSome).run_orFails (decryptSome crates)
      (mends_limitWriter (mends_sink hopen .stdout)) (blockIo archive block p) with
    heq | ⟨x, io, hrun, hx⟩
  · exact .inl (by simp only [decompressBlock, heq])
  · exact .inr ⟨x, (io.crypto, io.out.1), by simp only [decompressBlock, hrun], hx⟩

/-- An entry is extracted alike, or fails with the block that met the closed pipe. -/
theorem orFails_extractEntry (hcrates : crates.StopsOnError) (hopen : os.LeftOpen os') (w : World) :
    (extractEntry crates os archive dest password true entry).run w =
        (extractEntry crates os' archive dest password true entry).run w ∨
      ∃ x w', (extractEntry crates os archive dest password true entry).run w = (.err x, w') ∧
        ∃ block, StopsAtBlock crates os archive password entry w block x ∧
          ClosedError block.compressionMethod x := by
  refine Run.orFails_behind fun target w₁ hjoin => ?_
  obtain rfl : w = w₁ := (Run.ofExcept_ok.mp hjoin).2
  split
  · exact .inl rfl
  · split
    · split <;> exact .inl rfl
    · refine Run.orFails_behind fun crypto w₁ hcrypto => ?_
      obtain ⟨hsetup, rfl⟩ := Run.ofExcept_ok.mp hcrypto
      refine Run.orFails_behind fun u w₁ hauth => ?_
      simp only [onReader, Prod.mk.injEq] at hauth
      obtain ⟨-, rfl⟩ := hauth
      refine Run.orFails_behind fun out w₁ hout => ?_
      simp only [openWriter, if_true, Os.note, Run.bind_run, Run.modify_run, Run.pure_run,
        Prod.mk.injEq, Outcome.ok.injEq] at hout
      obtain ⟨rfl, rfl⟩ := hout
      have hloop := Run.forEach_orFails (extractBlock crates os archive .stdout)
        (extractBlock crates os' archive .stdout) entry.blocks
        (P := fun block p x => ((extractBlock crates os archive .stdout block).run p).1 = .err x ∧
          ClosedError block.compressionMethod x)
        (fun block _ p => (orFails_extractBlock hcrates hopen block p).imp id
          fun ⟨x, p', hrun, hx⟩ => ⟨x, p', hrun, by rw [hrun], hx⟩)
        (crypto.map FileCrypto.decryptor, w ++ [.stdout])
      rcases hloop with heq | ⟨x, p', hrun, earlier, block, later, p, hsplit, hearlier, hstop, hx⟩
      · exact .inl (by simp only [Run.bind_run, Run.attempt, extractBlocks, heq])
      · refine .inr ⟨x, p'.2, ?_, block, ?_, hx⟩
        · simp only [Run.bind_run, Run.attempt, extractBlocks, hrun]
          rfl
        · exact ⟨crypto, earlier, later, p, hsetup, hsplit, hearlier, hstop⟩

/-! ## the archive -/

/-- What an extraction in pipe mode that stopped with `x` was decompressing, by
method: a block, or the solid stream. -/
inductive StopsUnder (crates : Crates) (os : Os) (archive : EggArchive) (dest : Path)
    (password : Option String) (filter : Option (List String)) (w : World) (x : EggError) :
    CompressionMethod → Prop
  | solid (h : archive.isSolid = true) :
      StopsUnder crates os archive dest password filter w x (solidMethod archive.entries)
  | block (h : archive.isSolid = false) {before after : List EggFileEntry} {entry : EggFileEntry}
      {w₁ : World} {block : EggBlock} (hsplit : selected filter archive.entries = before ++ entry :: after)
      (hbefore : (Run.forEach (extractEntry crates os archive dest password true) before).run w =
        (.ok (), w₁))
      (hblock : StopsAtBlock crates os archive password entry w₁ block x) :
      StopsUnder crates os archive dest password filter w x block.compressionMethod

/-- **A closed pipe** makes no difference, or the extraction stops with an error
that is recognised if and only if neither LZMA nor AZO is being decompressed. -/
theorem closed_pipe_recognised (hcrates : crates.StopsOnError) (hopen : os.LeftOpen os')
    (archive : EggArchive) (dest : Path) (password : Option String) (filter : Option (List String))
    (w : World) :
    (extraction crates os archive dest password true filter).run w =
        (extraction crates os' archive dest password true filter).run w ∨
      ∃ x w', (extraction crates os archive dest password true filter).run w = (.err x, w') ∧
        ∃ method, StopsUnder crates os archive dest password filter w x method ∧
          (x.isBrokenPipe ↔ ¬ method.Hides) := by
  cases hsolid : archive.isSolid with
  | true =>
      rw [extraction_solid _ _ _ _ _ _ _ hsolid, extraction_solid _ _ _ _ _ _ _ hsolid]
      rcases (orFails_extractAllSolid hcrates hopen).bind
        (fun _ => .refl (checkMatched archive filter)) w with heq | ⟨x, w', hrun, hx⟩
      · exact .inl heq
      · exact .inr ⟨x, w', hrun, _, .solid hsolid, hx.isBrokenPipe_iff⟩
  | false =>
      rw [extraction_entries _ _ _ _ _ _ _ hsolid, extraction_entries _ _ _ _ _ _ _ hsolid]
      rcases Run.forEach_orFails _ _ (selected filter archive.entries)
        (fun entry _ w => orFails_extractEntry hcrates hopen w) w with
        heq | ⟨x, w', hrun, before, entry, after, w₁, hsplit, hbefore, block, hblock, hx⟩
      · exact .inl (by rw [Run.bind_run, Run.bind_run, heq])
      · exact .inr ⟨x, w', Run.bind_of_err hrun, _, .block hsolid hsplit hbefore hblock,
          hx.isBrokenPipe_iff⟩

/-- A system whose standard output nobody reads. -/
def Os.closed : Os :=
  { Os.obliging with write := fun _ _ _ => .error ⟨.brokenPipe, "Broken pipe (os error 32)"⟩ }

/-- The obliging system is the closed one left open. -/
theorem Os.closed_leftOpen : Os.closed.LeftOpen Os.obliging where
  createDirAll := rfl
  create := rfl
  writes _ _ bs := ⟨bs.length, rfl⟩
  flushes _ _ := rfl
  write _ _ _ := .inr ⟨_, rfl, rfl⟩
  flush _ _ := .inl rfl

/-- An archive with one file `"a"` of a line break, in one block. -/
def oneBlock (method : CompressionMethod) (compressed : List UInt8) : EggArchive where
  reader := ⟨compressed, 0⟩
  entries := [⟨"a", 0, 1, [⟨method, 1, compressed.length.toUInt32, 0x32D70693, 0⟩], none, none, 0,
    none⟩]
  isEncrypted := false
  isSolid := false
  headerId := 0
  splitInfo := none

/-- A stored line break is written at once, and its error is recognised. -/
theorem storedBlock_recognised :
    ∃ x w', (extraction .storeOnly .closed (oneBlock .store [0x0A]) [.normal "out"] none true
        none).run [] = (.err x, w') ∧ ∃ method, StopsUnder .storeOnly .closed
        (oneBlock .store [0x0A]) [.normal "out"] none none [] x method ∧
        (x.isBrokenPipe ↔ ¬ method.Hides) := by
  rcases closed_pipe_recognised Crates.storeOnly_stops Os.closed_leftOpen (oneBlock .store [0x0A])
    [.normal "out"] none none [] with heq | h
  · exact absurd heq (by decide +kernel)
  · exact h

/-- An LZMA library that puts out a line break, and tells of a failed write as `lzma_rs`
does. -/
def Crates.oneByteLzma : Crates :=
  { Crates.storeOnly with
    lzma := fun _ _ => .writeAll [0x0A] fun _ r =>
      match r with
      | none => .ret ()
      | some e => .fail ("io error: " ++ e.text) }

/-- The decoder stops at a refused write, with its text. -/
theorem Crates.oneByteLzma_stops : oneByteLzma.StopsOnError where
  lzma _ _ := ⟨trivial, fun e => "io error: " ++ e.text, fun _ _ => rfl⟩
  azo _ _ _ := trivial

/-- It decodes its block, unless the pipe is closed: then the error is no longer
recognised. -/
theorem lzmaBlock_unrecognised :
    Crates.oneByteLzma.StopsOnError ∧ Os.closed.LeftOpen Os.obliging ∧
      (extraction .oneByteLzma .obliging (oneBlock .lzma (List.replicate 9 0)) [.normal "out"] none
        true none).run [] = (.ok (), [.stdout, .write .stdout [0x0A]]) ∧
      (extraction .oneByteLzma .closed (oneBlock .lzma (List.replicate 9 0)) [.normal "out"] none
        true none).run [] = (.err (.lzmaFailed "io error: Broken pipe (os error 32)"), [.stdout]) ∧
      (EggError.lzmaFailed "io error: Broken pipe (os error 32)").isBrokenPipe = false := by
  refine ⟨Crates.oneByteLzma_stops, Os.closed_leftOpen, ?_⟩
  decide +kernel

end Unegg
