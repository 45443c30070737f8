import Unegg.Archive
import Unegg.Volume

/-!
# Unegg.Volume.Open

How the volumes of a split archive are found and joined (`volume.rs`).

A directory is the list of its entries in the order `read_dir` gives them; an
opened file is a `Cursor` at its start.  The volumes are followed from next id
to next id (`chainStep`), at most `maxVolumes` of them.
-/

namespace Unegg

open Prog Bytes

/-! ## the prefix of a volume -/

def readU32Raw : Parser UInt32 := readU32

def readExtraFieldRaw : Parser (UInt8 × UInt32) := readExtraField

/-- One pass of the loop in `read_split_info`. -/
def splitInfoStep (_ : Unit) : Parser (Prog.Flow Unit (Option (UInt32 × UInt32))) := do
  let sig ← readU32Raw
  if sig = sigEndMarker then return .done none
  else
    let (_, size) ← readExtraFieldRaw
    if sig = sigSplitInfo then
      let prevId ← readU32Raw
      let nextId ← readU32Raw
      return .done (some (prevId, nextId))
    else
      seekCurrent size.toNat
      return .next ()

/-- The split info (previous and next id) of a file's prefix. -/
def readSplitInfo : Parser (Option (UInt32 × UInt32)) := do
  seekStart 0
  match ← Run.attempt (readExact 4) with
  | .error _ => return none
  | .ok sig =>
    if UInt32.ofNat (ofLE sig) ≠ sigEggHeader then return none
    else
      seekStart 14
      let bound ← passBound
      Run.loop splitInfoStep bound ()

/-- One pass of the loop in `skip_continuation_header`. -/
def continuationStep (_ : Unit) : Parser (Prog.Flow Unit Unit) := do
  let sig ← readU32Raw
  if sig = sigEndMarker then return .done ()
  else
    let (_, size) ← readExtraFieldRaw
    seekCurrent size.toNat
    return .next ()

/-- The offset behind the header and the prefix of a file. -/
def skipContinuationHeader : Parser Nat := do
  seekStart 0
  let sig ← readU32Raw
  if sig ≠ sigEggHeader then Run.throw .notEggFile
  else
    seekCurrent 10
    let bound ← passBound
    Run.loop continuationStep bound ()
    streamPosition

/-! ## finding volumes -/

structure DirEntry where
  isFile : Bool
  bytes : List UInt8
  deriving Repr, DecidableEq

/-- The header id in the first ten bytes of a file. -/
def quickHeaderId (bytes : List UInt8) : Option UInt32 :=
  let buf := bytes.take 10
  if buf.length < 10 then none
  else if UInt32.ofNat (ofLE (buf.take 4)) ≠ sigEggHeader then none
  else some (UInt32.ofNat (ofLE (buf.drop 6)))

/-- The first file of the directory with a header id. -/
def findVolumeById (dir : List DirEntry) (targetId : UInt32) : Except EggError (List UInt8) :=
  match dir.find? fun entry => entry.isFile && quickHeaderId entry.bytes = some targetId with
  | some entry => .ok entry.bytes
  | none => .error (.cantOpenFile ⟨.notFound,
      "split volume with ID 0x" ++ EggError.hex8 targetId ++ " not found"⟩)

/-! ## the chain -/

/-- What `try_open` runs in: files are opened as it goes. -/
abbrev Opening := Run Unit EggError

/-- Read from a file that has just been opened; the file is kept. -/
def onFile {α : Type} (bytes : List UInt8) (m : Parser α) : Opening (α × Cursor) := ⟨fun u =>
  match m.run ⟨bytes, 0⟩ with
  | (.ok a, file) => (.ok (a, file), u)
  | (.err e, _) => (.err e, u)
  | (.panic, _) => (.panic, u)
  | (.hang, _) => (.hang, u)⟩

def maxVolumes : Nat := 10000

/-- The segments joined so far, the ids seen, and the next one. -/
structure Chain where
  segments : List Segment
  seen : List UInt32
  next : UInt32
  deriving Repr, DecidableEq

/-- What is read of a continuation volume: where its data starts and the next id. -/
def readVolume : Parser (Nat × UInt32) := do
  let dataStart ← skipContinuationHeader
  seekStart 0
  let volSplit ← readSplitInfo
  return (dataStart, (volSplit.map Prod.snd).getD 0)

/-- The end of the stream so far. -/
def endOf (segments : List Segment) : Nat := (segments.getLast?.map Segment.logicalEnd).getD 0

/-- One pass of the loop in `try_open`. -/
def chainStep (dir : List DirEntry) (chain : Chain) : Opening (Flow Chain (List Segment)) :=
  if chain.next = 0 then return .done chain.segments
  else if chain.next ∈ chain.seen then Run.throw .corruptedFile
  else if maxVolumes ≤ chain.segments.length then Run.throw .corruptedFile
  else do
    let bytes ← Run.ofExcept (findVolumeById dir chain.next)
    let ((dataStart, next), file) ← onFile bytes readVolume
    if bytes.length < dataStart then Run.throw .corruptedFile
    else return .next {
      segments := chain.segments ++ [{
        file
        physStart := dataStart
        logicalStart := endOf chain.segments
        dataSize := bytes.length - dataStart }]
      seen := chain.next :: chain.seen
      next }

/-- The first volume is a segment as a whole. -/
def Chain.start (first : List UInt8) (next : UInt32) : Chain where
  segments := [⟨⟨first, 0⟩, 0, 0, first.length⟩]
  seen := (quickHeaderId first).toList
  next

/-- Open the volumes from the first one on; `none` when the archive is not split. -/
def tryOpen (dir : List DirEntry) (first : List UInt8) : Opening (Option MultiVolumeReader) := do
  let (split, _) ← onFile first readSplitInfo
  match split with
  | none => return none
  | some (_, next) =>
    if next = 0 then return none
    else
      let segments ← Run.loop (chainStep dir) (maxVolumes + 1) (Chain.start first next)
      return some (.new segments)

end Unegg
