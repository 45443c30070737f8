import Unegg.Cursor

/-!
# Unegg.Volume

The reader that chains the volumes of a split archive into one stream
(`volume.rs`, `MultiVolumeReader`).

A volume file is a `Cursor` of its own: its bytes and the position the
operating system keeps for the open file.  Positions and sizes are natural
numbers; the conversions of `seek` to `i64` are spelled out (`asI64`).  How
many bytes one `File::read` delivers is the operating system's choice and is
an argument of the operation (`readAmount`).
-/

namespace Unegg

open Prog

structure Segment where
  file : Cursor
  physStart : Nat
  logicalStart : Nat
  dataSize : Nat
  deriving Repr, DecidableEq

/-- The stream position right after the segment. -/
def Segment.logicalEnd (s : Segment) : Nat := s.logicalStart + s.dataSize

structure MultiVolumeReader where
  segments : List Segment
  current : Nat
  logicalPos : Nat
  totalSize : Nat
  deriving Repr, DecidableEq

/-- `std::io::SeekFrom`. -/
inductive SeekFrom where
  | start (p : UInt64)
  | current (delta : Int64)
  | end' (delta : Int64)

/-! ## the operating system -/

/-- How many bytes a `File::read` delivers when `want` are asked for and
`avail` are left: `k`, but no more than that, and at least one if it can. -/
def readAmount (want avail k : Nat) : Nat := min (max 1 k) (min want avail)

/-- Two's complement reading of a value in an `i64`. -/
def asI64 (n : Int) : Int := n.bmod (2 ^ 64)

namespace MultiVolumeReader

abbrev Action := Run MultiVolumeReader IoError

/-- Move the file of segment `i`; positions past `i64::MAX` are refused. -/
def seekFile (i : Nat) (p : Nat) : Action Unit := ⟨fun r =>
  if p < 2 ^ 63 then
    (.ok (), { r with
      segments := r.segments.modify i fun s => { s with file := { s.file with pos := p } } })
  else (.err ⟨.invalidInput, "Invalid argument (os error 22)"⟩, r)⟩

/-- Read up to `want` bytes from the file of segment `i`. -/
def readFile (i want k : Nat) : Action (List UInt8) := ⟨fun r =>
  match r.segments[i]? with
  | none => (.panic, r)
  | some s =>
    let n := readAmount want s.file.rest.length k
    (.ok (s.file.rest.take n), { r with
      segments := r.segments.modify i fun s => { s with file := s.file.advance n } })⟩

/-! ## the reader -/

/-- One pass of the loop in `read`. -/
def readStep (len k : Nat) (_ : Unit) : Action (Flow Unit (List UInt8)) := do
  let r ← Run.get
  match r.segments[r.current]? with
  | none => return .done []
  | some seg =>
    if seg.logicalEnd ≤ r.logicalPos then
      Run.set { r with current := r.current + 1 }
      match r.segments[r.current + 1]? with
      | none => return .done []
      | some nextSeg =>
        seekFile (r.current + 1) nextSeg.physStart
        return .next ()
    else
      let remaining := seg.logicalEnd - r.logicalPos
      let toRead := min remaining len
      let bytes ← readFile r.current toRead k
      Run.modify fun r => { r with logicalPos := r.logicalPos + bytes.length }
      return .done bytes

/-- `read` into a buffer of `len` bytes: the bytes it puts there. -/
def read (len k : Nat) : Action (List UInt8) := do
  let r ← Run.get
  Run.loop (readStep len k) (r.segments.length + 1) ()

/-- The position `seek` aims at, as the `i64` it computes. -/
def target (r : MultiVolumeReader) : SeekFrom → Int
  | .start p => asI64 p.toNat
  | .current delta => asI64 (asI64 r.logicalPos + delta.toInt)
  | .end' delta => asI64 (asI64 r.totalSize + delta.toInt)

/-- The segment a position falls in; the last one when it is past the end. -/
def segmentIndex (r : MultiVolumeReader) (p : Nat) : Nat :=
  (r.segments.findIdx? fun s => p < s.logicalEnd).getD (r.segments.length - 1)

def seek (pos : SeekFrom) : Action Nat := do
  let r ← Run.get
  let t := r.target pos
  if t < 0 then Run.throw ⟨.invalidInput, "seek before start"⟩
  else
    let p := t.toNat
    let idx := r.segmentIndex p
    Run.set { r with logicalPos := p, current := idx }
    match r.segments[idx]? with
    | none => Run.panic
    | some seg =>
      seekFile idx (seg.physStart + (p - seg.logicalStart))
      return p

/-- The reader as `try_open` leaves it. -/
def new (segments : List Segment) : MultiVolumeReader where
  segments
  current := 0
  logicalPos := 0
  totalSize := (segments.getLast?.map Segment.logicalEnd).getD 0

end MultiVolumeReader

end Unegg
