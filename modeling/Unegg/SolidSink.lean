import Unegg.Crc32
import Unegg.Effects

/-!
# Unegg.SolidSink

The sink of solid extraction (`SolidSink` in `extract.rs`): it splits one
decompressed stream into the files, checks the checksum of each block on the
way, and refuses output beyond what was declared.

The fields the sink borrows are a `SinkConfig`, the ones it changes a
`SolidSink`; its methods run on a `SolidSink` and the `World`.  Sizes are
natural numbers: no counter exceeds the size of its span, and an underflow of
the subtractions is an outcome of its own.
-/

namespace Unegg

open Prog Crc32

/-! ## filters -/

/-- A filter matches an entry by exact name or as a parent directory. -/
def matchesFilter (name pat : String) : Bool :=
  let pat := (trimEndSlashes pat).toList
  name.toList = pat ||
    (pat.isPrefixOf name.toList && (name.toList.drop pat.length).head? = some '/')

def shouldExtract (entry : EggFileEntry) (filter : Option (List String)) : Bool :=
  match filter with
  | none => true
  | some files => files.any fun f => matchesFilter entry.fileName f

/-! ## the sink -/

structure SinkConfig where
  /-- Entry index and uncompressed size: the tiling of the output by file. -/
  fileSpans : List (Nat × Nat)
  /-- Uncompressed size and checksum: the tiling by block. -/
  crcSpans : List (Nat × UInt32)
  entries : List EggFileEntry
  destDir : Path
  filter : Option (List String)
  pipeMode : Bool
  deriving Repr, DecidableEq

/-- The entry of a file span. -/
def SinkConfig.entryAt (cfg : SinkConfig) (i : Nat) : Option EggFileEntry :=
  cfg.fileSpans[i]?.bind fun span => cfg.entries[span.1]?

structure SolidSink where
  fileIdx : Nat
  fileWritten : Nat
  fileOpen : Bool
  writer : Option Target
  crcIdx : Nat
  crcWritten : Nat
  hasher : Hasher
  created : List Path
  deriving Repr, DecidableEq

namespace SolidSink

def new : SolidSink where
  fileIdx := 0
  fileWritten := 0
  fileOpen := false
  writer := none
  crcIdx := 0
  crcWritten := 0
  hasher := .new
  created := []

/-- A method of the sink. -/
abbrev Method := Run (SolidSink × World) IoError

/-- The sink's own fields. -/
def self : Method SolidSink := ⟨fun p => (.ok p.1, p)⟩

def modify (f : SolidSink → SolidSink) : Method Unit := Run.modify fun p => (f p.1, p.2)

/-- A call to the outside. -/
def call {α : Type} (m : Run World IoError α) : Method α := Run.zoom Prod.snd (fun w p => (p.1, w)) m

@[simp] theorem self_run (p : SolidSink × World) : self.run p = (.ok p.1, p) := rfl

@[simp] theorem modify_run (f : SolidSink → SolidSink) (p : SolidSink × World) :
    (modify f).run p = (.ok (), (f p.1, p.2)) := rfl

theorem call_ok {α : Type} {m : Run World IoError α} {p p' : SolidSink × World} {a : α} :
    (call m).run p = (.ok a, p') ↔ ∃ w, m.run p.2 = (.ok a, w) ∧ p' = (p.1, w) := by
  simp only [call, Run.zoom, Prod.mk.injEq]
  constructor
  · rintro ⟨hok, rfl⟩
    exact ⟨_, Prod.ext hok rfl, rfl⟩
  · rintro ⟨w, hw, rfl⟩
    exact ⟨by rw [hw], by rw [hw]⟩

variable (os : Os) (cfg : SinkConfig)

/-- The output of an entry that is extracted. -/
def openOutput (entry : EggFileEntry) : Method Unit :=
  if cfg.pipeMode then do
    call (Os.note .stdout)
    modify fun s => { s with writer := some .stdout }
  else do
    let path ← Run.ofExcept ((safeJoin cfg.destDir entry.fileName).mapError fun e =>
      ⟨.invalidData, e.toString⟩)
    call (os.createParent path)
    call (os.createFile path)
    modify fun s => { s with created := s.created ++ [path], writer := some (.file path) }

/-- Open the output of the current file span, once. -/
def ensureFileOpen : Method Unit := do
  let s ← self
  if s.fileOpen then return ()
  else
    modify fun s => { s with fileOpen := true }
    match cfg.entryAt s.fileIdx with
    | none => Run.panic
    | some entry => if shouldExtract entry cfg.filter then openOutput os cfg entry else return ()

/-- Close the current file and go on to the next one. -/
def closeFile : Method Unit := modify fun s =>
  { s with writer := none, fileIdx := s.fileIdx + 1, fileWritten := 0, fileOpen := false }

/-- One pass of `advance_full_files`. -/
def advanceStep (_ : Unit) : Method (Prog.Flow Unit Unit) := do
  let s ← self
  match cfg.fileSpans[s.fileIdx]? with
  | none => return .done ()
  | some (_, size) =>
    if s.fileWritten < size then return .done ()
    else
      ensureFileOpen os cfg
      closeFile
      return .next ()

/-- Advance past the file spans that are full, the zero-length ones included. -/
def advanceFullFiles : Method Unit :=
  Run.loop (advanceStep os cfg) (cfg.fileSpans.length + 1) ()

/-- The end of a block: its checksum is compared and the next block begins. -/
def finishBlock (crcSize : Nat) (crc32 : UInt32) : Method Unit := do
  let s ← self
  if s.crcWritten = crcSize then
    modify fun s => { s with hasher := .new }
    if s.hasher.finalize ≠ crc32 then
      Run.throw ⟨.invalidData, "solid block CRC mismatch"⟩
    else modify fun s => { s with crcIdx := s.crcIdx + 1, crcWritten := 0 }
  else return ()

/-- A run of bytes that lies in one file span and in one block. -/
def writeChunk (chunk : List UInt8) : Method Unit := do
  modify fun s => { s with hasher := s.hasher.update chunk }
  let s ← self
  call (os.writeTo s.writer chunk)
  modify fun s => { s with
    fileWritten := s.fileWritten + chunk.length
    crcWritten := s.crcWritten + chunk.length }

/-- One pass of the loop of `write` over what is left of the buffer. -/
def writeStep (rest : List UInt8) : Method (Prog.Flow (List UInt8) Unit) :=
  if rest = [] then return .done ()
  else do
    advanceFullFiles os cfg
    let s ← self
    match cfg.fileSpans[s.fileIdx]? with
    | none => Run.throw ⟨.invalidData, "solid output exceeds declared uncompressed size"⟩
    | some (_, fileSize) =>
      match cfg.crcSpans[s.crcIdx]? with
      | none => Run.throw ⟨.invalidData, "solid output exceeds declared block size"⟩
      | some (crcSize, crc32) =>
        ensureFileOpen os cfg
        if fileSize < s.fileWritten ∨ crcSize < s.crcWritten then Run.panic
        else
          let fileNeed := min (fileSize - s.fileWritten) rest.length
          let crcNeed := min (crcSize - s.crcWritten) rest.length
          let take := min (min rest.length fileNeed) crcNeed
          writeChunk os (rest.take take)
          finishBlock crcSize crc32
          return .next (rest.drop take)

/-- `Write::write`. -/
def write (buf : List UInt8) : Method Nat := do
  Run.loop (writeStep os cfg) (buf.length + cfg.crcSpans.length + 1) buf
  return buf.length

/-- `Write::flush`. -/
def flush : Method Unit := do
  let s ← self
  match s.writer with
  | some t => call (os.sink t).flush
  | none => return ()

theorem write_ok {buf : List UInt8} {p p' : SolidSink × World} {n : Nat}
    (h : (write os cfg buf).run p = (.ok n, p')) :
    (Run.loop (writeStep os cfg) (buf.length + cfg.crcSpans.length + 1) buf).run p =
      (.ok (), p') ∧ n = buf.length := by
  rw [write, Run.bind_ok] at h
  obtain ⟨_, p₁, hloop, h⟩ := h
  simp only [Run.pure_run, Prod.mk.injEq, Outcome.ok.injEq] at h
  exact ⟨h.2 ▸ hloop, h.1.symm⟩

/-- The sink as a writer. -/
def sink : ByteSink IoError (SolidSink × World) where
  write := write os cfg
  flush := flush os
  write_le := fun _ _ _ _ h => (write_ok os cfg h).2.le

/-- The whole declared stream was produced; the zero-length files at its end
are created. -/
def finish : Run (SolidSink × World) EggError Unit := do
  Run.mapErr .io (advanceFullFiles os cfg)
  let s ← Run.mapErr .io self
  if s.fileIdx ≠ cfg.fileSpans.length ∨ s.crcIdx ≠ cfg.crcSpans.length ∨ s.crcWritten ≠ 0 then
    Run.throw .corruptedFile
  else return ()

/-- Remove every file the sink created. -/
def cleanup (s : SolidSink) : Run World EggError Unit :=
  Run.forEach (fun path => Os.note (.remove path)) s.created

end SolidSink

end Unegg
