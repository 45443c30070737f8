import Unegg.Volume
import Unegg.Refinement

/-!
# Unegg.Volume.Refines

`MultiVolumeReader` is a cursor over the concatenation of its segments.

`Tiled` says how `try_open` lays the segments out; `Consistent` is the
invariant that ties the reader's index, its position and the position of the
file it reads from together.  Every operation keeps it and answers as the
plain cursor may (`Allowed`), so every run of operations does.
-/

namespace Unegg

open Prog Bytes Refinement

/-! ## layouts -/

/-- The bytes a segment contributes. -/
def Segment.bytes (s : Segment) : List UInt8 := (s.file.data.drop s.physStart).take s.dataSize

/-- The file holds the segment; its size is one the system can express. -/
def Segment.Placed (s : Segment) : Prop :=
  s.physStart + s.dataSize ≤ s.file.data.length ∧ s.file.data.length < 2 ^ 63

instance (s : Segment) : Decidable s.Placed := inferInstanceAs (Decidable (_ ∧ _))

/-- The stream the segments make. -/
def contents (segs : List Segment) : List UInt8 := segs.flatMap Segment.bytes

/-- The segments lie one behind the other from `lo` on. -/
def Tiled : Nat → List Segment → Prop
  | _, [] => True
  | lo, s :: segs => s.logicalStart = lo ∧ s.Placed ∧ Tiled s.logicalEnd segs

instance Tiled.decide : ∀ lo segs, Decidable (Tiled lo segs)
  | _, [] => isTrue trivial
  | _, s :: segs =>
    @instDecidableAnd _ _ _ (@instDecidableAnd _ _ _ (Tiled.decide s.logicalEnd segs))

theorem Segment.length_bytes {s : Segment} (h : s.Placed) : s.bytes.length = s.dataSize := by
  obtain ⟨h, -⟩ := h
  rw [bytes, List.length_take, List.length_drop]
  omega

/-- A change of a segment that only moves its file. -/
structure MovesFile (f : Segment → Segment) : Prop where
  data : ∀ s, (f s).file.data = s.file.data
  physStart : ∀ s, (f s).physStart = s.physStart
  logicalStart : ∀ s, (f s).logicalStart = s.logicalStart
  dataSize : ∀ s, (f s).dataSize = s.dataSize

namespace Tiled

variable {lo i : Nat} {segs : List Segment} {s s' : Segment}

theorem placed (h : Tiled lo segs) (hi : segs[i]? = some s) : s.Placed := by
  induction segs generalizing lo i with
  | nil => simp at hi
  | cons t segs ih =>
      cases i with
      | zero =>
          rw [List.getElem?_cons_zero, Option.some.injEq] at hi
          rw [← hi]
          exact h.2.1
      | succ i => exact ih h.2.2 hi

theorem start_ge (h : Tiled lo segs) (hi : segs[i]? = some s) : lo ≤ s.logicalStart := by
  induction segs generalizing lo i with
  | nil => simp at hi
  | cons t segs ih =>
      cases i with
      | zero =>
          rw [List.getElem?_cons_zero, Option.some.injEq] at hi
          rw [← hi, h.1]
      | succ i =>
          have hge := ih h.2.2 hi
          have hstart := h.1
          rw [Segment.logicalEnd] at hge
          omega

theorem next (h : Tiled lo segs) (hi : segs[i]? = some s) (hi' : segs[i + 1]? = some s') :
    s'.logicalStart = s.logicalEnd := by
  induction segs generalizing lo i with
  | nil => simp at hi
  | cons t segs ih =>
      cases i with
      | zero =>
          rw [List.getElem?_cons_zero, Option.some.injEq] at hi
          cases segs with
          | nil => simp at hi'
          | cons t' segs =>
              simp only [Nat.zero_add, List.getElem?_cons_succ, List.getElem?_cons_zero,
                Option.some.injEq] at hi'
              rw [← hi, ← hi', h.2.2.1]
      | succ i => exact ih h.2.2 hi hi'

/-- The last segment ends where the stream does. -/
theorem end_eq (h : Tiled lo segs) (hi : segs[i]? = some s) (hlast : i + 1 = segs.length) :
    s.logicalEnd = lo + (contents segs).length := by
  induction segs generalizing lo i with
  | nil => simp at hi
  | cons t segs ih =>
      have hlen := Segment.length_bytes h.2.1
      have hstart := h.1
      rw [contents, List.flatMap_cons, List.length_append, ← contents, hlen]
      cases i with
      | zero =>
          rw [List.getElem?_cons_zero, Option.some.injEq] at hi
          have hnil : segs = [] := List.length_eq_zero_iff.mp (by simpa using hlast.symm)
          rw [← hi, hnil, Segment.logicalEnd, hstart]
          rfl
      | succ i =>
          have hend := ih h.2.2 hi (by simpa using hlast)
          rw [hend, Segment.logicalEnd, hstart, Nat.add_assoc]

theorem end_le (h : Tiled lo segs) (hi : segs[i]? = some s) :
    s.logicalEnd ≤ lo + (contents segs).length := by
  induction segs generalizing lo i with
  | nil => simp at hi
  | cons t segs ih =>
      have hlen := Segment.length_bytes h.2.1
      have hstart := h.1
      rw [contents, List.flatMap_cons, List.length_append, ← contents, hlen]
      cases i with
      | zero =>
          rw [List.getElem?_cons_zero, Option.some.injEq] at hi
          rw [← hi, Segment.logicalEnd]
          omega
      | succ i =>
          have hend := ih h.2.2 hi
          have htail : t.logicalEnd = t.logicalStart + t.dataSize := rfl
          omega

/-- Inside a segment the stream is the segment. -/
theorem drop_take (h : Tiled lo segs) (hi : segs[i]? = some s) {p n : Nat}
    (hp : s.logicalStart ≤ p) (hn : p + n ≤ s.logicalEnd) :
    ((contents segs).drop (p - lo)).take n = (s.bytes.drop (p - s.logicalStart)).take n := by
  induction segs generalizing lo i with
  | nil => simp at hi
  | cons t segs ih =>
      have hlen := Segment.length_bytes h.2.1
      have hstart := h.1
      rw [contents, List.flatMap_cons, ← contents]
      cases i with
      | zero =>
          rw [List.getElem?_cons_zero, Option.some.injEq] at hi
          rw [hi] at hlen hstart
          rw [hi, ← hstart]
          have hdrop : p - s.logicalStart + n ≤ s.bytes.length := by
            rw [hlen]
            rw [Segment.logicalEnd] at hn
            omega
          rw [List.drop_append_of_le_length (by omega),
            List.take_append_of_le_length (by rw [List.length_drop]; omega)]
      | succ i =>
          have hge := h.2.2.start_ge hi
          rw [← ih h.2.2 hi, Segment.logicalEnd]
          rw [Segment.logicalEnd] at hge
          have hskip : p - lo = t.bytes.length + (p - (t.logicalStart + t.dataSize)) := by omega
          rw [hskip, List.drop_append, List.drop_eq_nil_of_le (Nat.le_add_right _ _),
            List.nil_append, Nat.add_sub_cancel_left]

/-- Moving a file leaves the layout as it is. -/
theorem modify (h : Tiled lo segs) {f : Segment → Segment} (hf : MovesFile f) :
    Tiled lo (segs.modify i f) ∧ contents (segs.modify i f) = contents segs := by
  induction segs generalizing lo i with
  | nil => simp [Tiled]
  | cons t segs ih =>
      cases i with
      | zero =>
          have h₁ := hf.data t
          have h₂ := hf.physStart t
          have h₃ := hf.logicalStart t
          have h₄ := hf.dataSize t
          obtain ⟨hstart, hplaced, htail⟩ := h
          rw [List.modify_zero_cons]
          refine ⟨⟨h₃.trans hstart, ?_, ?_⟩, ?_⟩
          · rw [Segment.Placed, h₁, h₂, h₄]
            exact hplaced
          · rw [Segment.logicalEnd, h₃, h₄]
            exact htail
          · rw [contents, List.flatMap_cons, Segment.bytes, h₁, h₂, h₄]
            rfl
      | succ i =>
          obtain ⟨htiled, hcontents⟩ := ih (i := i) h.2.2
          rw [List.modify_succ_cons]
          refine ⟨⟨h.1, h.2.1, htiled⟩, ?_⟩
          rw [contents, List.flatMap_cons, ← contents, hcontents]
          rfl

/-- The first segment that ends behind a position starts at or before it. -/
theorem start_le_of_findIdx (h : Tiled lo segs) {p : Nat} (hlo : lo ≤ p)
    (hfind : (segs.findIdx? fun s => p < s.logicalEnd) = some i) (hi : segs[i]? = some s) :
    s.logicalStart ≤ p ∧ p < s.logicalEnd := by
  induction segs generalizing lo i with
  | nil => simp at hi
  | cons t segs ih =>
      rw [List.findIdx?_cons] at hfind
      split at hfind
      · next hlt =>
          rw [Option.some.injEq] at hfind
          rw [← hfind, List.getElem?_cons_zero, Option.some.injEq] at hi
          rw [← hi]
          exact ⟨h.1.trans_le hlo, of_decide_eq_true hlt⟩
      · next hge =>
          rw [decide_eq_true_iff, not_lt] at hge
          rw [Option.map_eq_some_iff] at hfind
          obtain ⟨j, hj, rfl⟩ := hfind
          exact ih h.2.2 hge hj hi

end Tiled

/-! ## the plain cursor -/

/-- What a reader is asked. -/
inductive Op where
  | read (len k : Nat)
  | seek (pos : SeekFrom)

/-- What it answers. -/
inductive Answer where
  | bytes (bs : List UInt8)
  | position (p : Nat)
  deriving Repr, DecidableEq

/-- The position a seek means, in a stream of `total` bytes. -/
def SeekFrom.means (pos total : Nat) : SeekFrom → Int
  | start p => p.toNat
  | current delta => pos + delta.toInt
  | end' delta => total + delta.toInt

/-- What a cursor over `data` at position `pos` may answer, and where it is
then.  A read may be short, but it is empty only when nothing is asked for or
nothing is left. -/
inductive Allowed (data : List UInt8) : Nat → Op → Outcome IoError Answer → Nat → Prop
  | read {pos len k n : Nat} (hn : n ≤ min len (data.length - pos))
      (hzero : n = 0 → len = 0 ∨ data.length ≤ pos) :
      Allowed data pos (.read len k) (.ok (.bytes ((data.drop pos).take n))) (pos + n)
  | seek {pos p : Nat} {target : SeekFrom} (hp : target.means pos data.length = p) :
      Allowed data pos (.seek target) (.ok (.position p)) p
  | seekBefore {pos : Nat} {target : SeekFrom} (hp : target.means pos data.length < 0) :
      Allowed data pos (.seek target) (.err ⟨.invalidInput, "seek before start"⟩) pos

/-! ## the invariant -/

namespace MultiVolumeReader

/-- The reader's fields agree with each other. -/
structure Consistent (r : MultiVolumeReader) : Prop where
  nonempty : 0 < r.segments.length
  tiled : Tiled 0 r.segments
  total_eq : r.totalSize = (contents r.segments).length
  current_le : r.current ≤ r.segments.length
  run_off : r.current = r.segments.length → (contents r.segments).length ≤ r.logicalPos
  start_le : ∀ s, r.segments[r.current]? = some s → s.logicalStart ≤ r.logicalPos
  file_pos : ∀ s, r.segments[r.current]? = some s → r.logicalPos ≤ s.logicalEnd →
    s.file.pos = s.physStart + (r.logicalPos - s.logicalStart)
  past_end : ∀ s, r.segments[r.current]? = some s → s.logicalEnd < r.logicalPos →
    r.current + 1 = r.segments.length

theorem seekFile_run {i p : Nat} (hp : p < 2 ^ 63) (r : MultiVolumeReader) :
    (seekFile i p).run r = (.ok (), { r with
      segments := r.segments.modify i fun s => { s with file := { s.file with pos := p } } }) := by
  simp only [seekFile, if_pos hp]

/-- The reader is consistent in a segment whose file stands where the position
says. -/
theorem consistent_at {segs : List Segment} {total i p : Nat} {s : Segment} {f : Segment → Segment}
    (htiled : Tiled 0 segs) (htotal : total = (contents segs).length) (hs : segs[i]? = some s)
    (hf : MovesFile f) (hstart : s.logicalStart ≤ p)
    (hpos : p ≤ s.logicalEnd → (f s).file.pos = s.physStart + (p - s.logicalStart))
    (hpast : s.logicalEnd < p → i + 1 = segs.length) :
    Consistent ⟨segs.modify i f, i, p, total⟩ ∧
      contents (segs.modify i f) = contents segs := by
  have hlt : i < segs.length := (List.getElem?_eq_some_iff.mp hs).1
  obtain ⟨htiled', hcontents⟩ := htiled.modify (i := i) hf
  have hget : ∀ t, (segs.modify i f)[i]? = some t → t = f s := by
    intro t ht
    rw [List.getElem?_modify_eq, hs] at ht
    exact (Option.some.inj ht).symm
  refine ⟨?_, hcontents⟩
  constructor
  · rw [List.length_modify]
    omega
  · exact htiled'
  · rw [hcontents, htotal]
  · rw [List.length_modify]
    exact hlt.le
  · intro heq
    rw [List.length_modify] at heq
    exact absurd heq hlt.ne
  · intro t ht
    rw [hget t ht, hf.logicalStart]
    exact hstart
  · intro t ht hle
    rw [hget t ht, Segment.logicalEnd, hf.logicalStart, hf.dataSize] at hle
    rw [hget t ht, hf.physStart, hf.logicalStart]
    exact hpos hle
  · intro t ht hlt
    rw [hget t ht, Segment.logicalEnd, hf.logicalStart, hf.dataSize] at hlt
    rw [List.length_modify]
    exact hpast hlt

/-- Reading at the end of a segment moves on to the next one. -/
theorem Consistent.nextSegment {r : MultiVolumeReader} (h : r.Consistent) {s s' : Segment}
    (hs : r.segments[r.current]? = some s) (hend : s.logicalEnd ≤ r.logicalPos)
    (hs' : r.segments[r.current + 1]? = some s') :
    Consistent { r with
      current := r.current + 1
      segments := r.segments.modify (r.current + 1) fun s =>
        { s with file := { s.file with pos := s'.physStart } } } ∧
      contents (r.segments.modify (r.current + 1) fun s =>
        { s with file := { s.file with pos := s'.physStart } }) = contents r.segments := by
  have hlt : r.current + 1 < r.segments.length := (List.getElem?_eq_some_iff.mp hs').1
  have hpos : r.logicalPos = s.logicalEnd := by
    by_contra hne
    have := h.past_end s hs (by omega)
    omega
  have hstart := h.tiled.next hs hs'
  have hsize : s'.logicalEnd = s'.logicalStart + s'.dataSize := rfl
  refine consistent_at h.tiled h.total_eq hs' ⟨fun _ => rfl, fun _ => rfl, fun _ => rfl, fun _ => rfl⟩
    (by omega) (fun _ => ?_) (by omega)
  rw [hstart, hpos, Nat.sub_self, Nat.add_zero]

/-! ## reading -/

/-- `r'` is `r` after a read into `len` bytes that gave `bs`, as a cursor may. -/
structure Reads (r : MultiVolumeReader) (len : Nat) (bs : List UInt8) (r' : MultiVolumeReader) :
    Prop where
  consistent : r'.Consistent
  contents_eq : contents r'.segments = contents r.segments
  pos_eq : r'.logicalPos = r.logicalPos + bs.length
  bytes_eq : bs = ((contents r.segments).drop r.logicalPos).take bs.length
  length_le : bs.length ≤ min len ((contents r.segments).length - r.logicalPos)
  empty : bs.length = 0 → len = 0 ∨ (contents r.segments).length ≤ r.logicalPos

/-- A read that finds nothing left moves nothing but the index. -/
theorem reads_nothing {r : MultiVolumeReader} (hend : (contents r.segments).length ≤ r.logicalPos)
    (len : Nat) {i : Nat} (h : Consistent { r with current := i }) :
    r.Reads len [] { r with current := i } where
  consistent := h
  contents_eq := rfl
  pos_eq := rfl
  bytes_eq := rfl
  length_le := Nat.zero_le _
  empty := fun _ => .inr hend

/-- Running off the last segment. -/
theorem Consistent.runOff {r : MultiVolumeReader} (h : r.Consistent) {s : Segment}
    (hs : r.segments[r.current]? = some s) (hend : s.logicalEnd ≤ r.logicalPos)
    (hlast : r.segments[r.current + 1]? = none) :
    Consistent { r with current := r.current + 1 } ∧
      (contents r.segments).length ≤ r.logicalPos := by
  have hlt : r.current < r.segments.length := (List.getElem?_eq_some_iff.mp hs).1
  have hlen : r.current + 1 = r.segments.length := by
    have := List.getElem?_eq_none_iff.mp hlast
    omega
  have htotal := h.tiled.end_eq hs hlen
  have hle : (contents r.segments).length ≤ r.logicalPos := by omega
  refine ⟨?_, hle⟩
  constructor
  · exact h.nonempty
  · exact h.tiled
  · exact h.total_eq
  · exact hlen.le
  · exact fun _ => hle
  · intro t ht
    simp [hlast] at ht
  · intro t ht
    simp [hlast] at ht
  · intro t ht
    simp [hlast] at ht

/-- Reading from the file of the current segment, with the position in it. -/
theorem Consistent.readFile_inside {r : MultiVolumeReader} (h : r.Consistent) {s : Segment}
    (hs : r.segments[r.current]? = some s) (hlt : r.logicalPos < s.logicalEnd) (len k : Nat) :
    ∃ bs r', (readFile r.current (min (s.logicalEnd - r.logicalPos) len) k).run r = (.ok bs, r') ∧
      r.Reads len bs { r' with logicalPos := r'.logicalPos + bs.length } := by
  have hstart := h.start_le s hs
  have hpos := h.file_pos s hs hlt.le
  have hplaced := h.tiled.placed hs
  have hend := h.tiled.end_le hs
  have hcur : r.current < r.segments.length := (List.getElem?_eq_some_iff.mp hs).1
  obtain ⟨hfits, -⟩ := hplaced
  have hsize : s.logicalEnd = s.logicalStart + s.dataSize := rfl
  have hrest : s.file.rest = s.file.data.drop (s.physStart + (r.logicalPos - s.logicalStart)) := by
    rw [Cursor.rest, hpos]
  have havail : s.logicalEnd - r.logicalPos ≤ s.file.rest.length := by
    rw [hrest, List.length_drop]
    omega
  let n := readAmount (min (s.logicalEnd - r.logicalPos) len) s.file.rest.length k
  have hn : n = min (max 1 k) (min (s.logicalEnd - r.logicalPos) len) := by
    simp only [n, readAmount]
    omega
  have hlen : (s.file.rest.take n).length = n := by
    rw [List.length_take]
    omega
  have hbytes : s.file.rest.take n = ((contents r.segments).drop r.logicalPos).take n := by
    have hslice := h.tiled.drop_take hs hstart (n := n) (by omega)
    rw [Nat.sub_zero] at hslice
    rw [hslice, hrest, Segment.bytes, List.drop_take, List.drop_drop, List.take_take]
    congr 1
    omega
  obtain ⟨hc, hcontents⟩ := consistent_at (p := r.logicalPos + n)
    (f := fun s => { s with file := s.file.advance n }) h.tiled h.total_eq hs
    ⟨fun _ => rfl, fun _ => rfl, fun _ => rfl, fun _ => rfl⟩ (by omega)
    (fun _ => by simp only [Cursor.advance_pos, hpos]; omega) (by omega)
  refine ⟨s.file.rest.take n, { r with
    segments := r.segments.modify r.current fun s => { s with file := s.file.advance n } }, ?_, ?_⟩
  · simp only [readFile, hs, n]
  · constructor
    · rw [hlen]
      exact hc
    · exact hcontents
    · rfl
    · rw [hlen]
      exact hbytes
    · rw [hlen, hn]
      omega
    · intro hzero
      rw [hlen] at hzero
      omega

/-- The read loop, with enough passes left for the segments that are left. -/
theorem Consistent.readLoop {r : MultiVolumeReader} (h : r.Consistent) (len k : Nat) {n : Nat}
    (hn : r.segments.length < n + r.current) :
    ∃ bs r', (Run.loop (readStep len k) n ()).run r = (.ok bs, r') ∧ r.Reads len bs r' := by
  induction n generalizing r with
  | zero =>
      have := h.current_le
      omega
  | succ n ih =>
      have hget : Run.get.run r = ((.ok r : Outcome IoError _), r) := rfl
      cases hs : r.segments[r.current]? with
      | none =>
          have hend := h.run_off (le_antisymm h.current_le (List.getElem?_eq_none_iff.mp hs))
          refine ⟨[], r, Run.loop_done ?_, reads_nothing hend len h⟩
          rw [readStep, Run.bind_of_ok hget, hs]
          rfl
      | some s =>
          by_cases hend : s.logicalEnd ≤ r.logicalPos
          · cases hs' : r.segments[r.current + 1]? with
            | none =>
                obtain ⟨hc, hle⟩ := h.runOff hs hend hs'
                refine ⟨[], { r with current := r.current + 1 }, Run.loop_done ?_,
                  reads_nothing hle len hc⟩
                rw [readStep, Run.bind_of_ok hget, hs]
                simp only [if_pos hend, hs']
                rfl
            | some s' =>
                obtain ⟨hc, hcontents⟩ := h.nextSegment hs hend hs'
                obtain ⟨hfits, hfile⟩ := h.tiled.placed hs'
                obtain ⟨bs, r', hrun, hreads⟩ := ih hc (by
                  simp only [List.length_modify]
                  omega)
                refine ⟨bs, r', ?_, ?_⟩
                · refine (Run.loop_next ?_).trans hrun
                  rw [readStep, Run.bind_of_ok hget, hs]
                  simp only [if_pos hend, hs']
                  rw [Run.bind_of_ok (Run.set_run _ _),
                    Run.bind_of_ok (seekFile_run (by omega) _)]
                  rfl
                · rcases hreads with ⟨h₁, h₂, h₃, h₄, h₅, h₆⟩
                  simp only [hcontents] at h₂ h₃ h₄ h₅ h₆
                  exact ⟨h₁, h₂, h₃, h₄, h₅, h₆⟩
          · obtain ⟨bs, r', hrun, hreads⟩ := h.readFile_inside hs (Nat.lt_of_not_le hend) len k
            refine ⟨bs, _, Run.loop_done ?_, hreads⟩
            rw [readStep, Run.bind_of_ok hget, hs]
            simp only [if_neg hend]
            rw [Run.bind_of_ok hrun]
            rfl

/-- A read answers as a cursor over the contents may. -/
theorem Consistent.read {r : MultiVolumeReader} (h : r.Consistent) (len k : Nat) :
    ∃ bs r', (read len k).run r = (.ok bs, r') ∧ r.Reads len bs r' := by
  obtain ⟨bs, r', hrun, hreads⟩ := h.readLoop len k (n := r.segments.length + 1) (by omega)
  have hget : Run.get.run r = ((.ok r : Outcome IoError _), r) := rfl
  exact ⟨bs, r', (Run.bind_of_ok hget).trans hrun, hreads⟩

/-! ## seeking -/

theorem asI64_of_fits {n : Int} (h : -2 ^ 63 ≤ n) (h' : n < 2 ^ 63) : asI64 n = n := by
  apply Int.bmod_eq_of_le <;> omega

/-- The value a seek starts its sum from, and what it adds. -/
def base (r : MultiVolumeReader) : SeekFrom → Int
  | .start _ => 0
  | .current _ => r.logicalPos
  | .end' _ => r.totalSize

/-- Every value the seek computes fits an `i64`: the base, the target, and the
position in the volume file. -/
structure SeekFits (r : MultiVolumeReader) (pos : SeekFrom) : Prop where
  base_lt : r.base pos < 2 ^ 63
  target_ge : -2 ^ 63 ≤ pos.means r.logicalPos r.totalSize
  target_lt : pos.means r.logicalPos r.totalSize < 2 ^ 63
  file_lt : ∀ s ∈ r.segments[r.segmentIndex (pos.means r.logicalPos r.totalSize).toNat]?,
    s.physStart + ((pos.means r.logicalPos r.totalSize).toNat - s.logicalStart) < 2 ^ 63

instance (r : MultiVolumeReader) (pos : SeekFrom) : Decidable (r.SeekFits pos) :=
  decidable_of_iff (r.base pos < 2 ^ 63 ∧ -2 ^ 63 ≤ pos.means r.logicalPos r.totalSize ∧
      pos.means r.logicalPos r.totalSize < 2 ^ 63 ∧
      ∀ s ∈ r.segments[r.segmentIndex (pos.means r.logicalPos r.totalSize).toNat]?,
        s.physStart + ((pos.means r.logicalPos r.totalSize).toNat - s.logicalStart) < 2 ^ 63)
    ⟨fun ⟨h₁, h₂, h₃, h₄⟩ => ⟨h₁, h₂, h₃, h₄⟩, fun ⟨h₁, h₂, h₃, h₄⟩ => ⟨h₁, h₂, h₃, h₄⟩⟩

theorem SeekFits.target_eq {r : MultiVolumeReader} {pos : SeekFrom} (h : r.SeekFits pos) :
    r.target pos = pos.means r.logicalPos r.totalSize := by
  have hbase := h.base_lt
  have hge := h.target_ge
  have hlt := h.target_lt
  cases pos with
  | start p => exact asI64_of_fits hge hlt
  | current delta =>
      have hpos : asI64 r.logicalPos = r.logicalPos :=
        asI64_of_fits (by omega) hbase
      rw [target, hpos]
      exact asI64_of_fits hge hlt
  | end' delta =>
      have htotal : asI64 r.totalSize = r.totalSize :=
        asI64_of_fits (by omega) hbase
      rw [target, htotal]
      exact asI64_of_fits hge hlt

/-- The segment a seek goes to: it starts at or before the position, and ends
behind it unless it is the last. -/
theorem Consistent.segmentIndex_spec {r : MultiVolumeReader} (h : r.Consistent) (p : Nat) :
    ∃ s, r.segments[r.segmentIndex p]? = some s ∧ s.logicalStart ≤ p ∧
      (s.logicalEnd < p → r.segmentIndex p + 1 = r.segments.length) := by
  cases hfind : r.segments.findIdx? fun s => p < s.logicalEnd with
  | some i =>
      have hi : i < r.segments.length := (List.findIdx?_eq_some_iff_getElem.mp hfind).1
      have hidx : r.segmentIndex p = i := by rw [segmentIndex, hfind, Option.getD_some]
      have hget : r.segments[i]? = some r.segments[i] := List.getElem?_eq_getElem hi
      obtain ⟨hstart, hend⟩ := h.tiled.start_le_of_findIdx (Nat.zero_le p) hfind hget
      rw [hidx]
      exact ⟨r.segments[i], hget, hstart, fun hlt => absurd hlt (by omega)⟩
  | none =>
      have hpos := h.nonempty
      have hidx : r.segmentIndex p = r.segments.length - 1 := by
        rw [segmentIndex, hfind, Option.getD_none]
      have hi : r.segments.length - 1 < r.segments.length := by omega
      have hget := List.getElem?_eq_getElem hi
      have hend := List.findIdx?_eq_none_iff.mp hfind _ (List.getElem_mem hi)
      rw [decide_eq_false_iff_not, not_lt, Segment.logicalEnd] at hend
      rw [hidx]
      exact ⟨_, hget, by omega, fun _ => by omega⟩

/-- A seek to a position keeps the invariant and moves there. -/
theorem Consistent.seek {r : MultiVolumeReader} (h : r.Consistent) {pos : SeekFrom}
    (hfits : r.SeekFits pos) {p : Nat}
    (hp : pos.means r.logicalPos r.totalSize = p) :
    ∃ r', (seek pos).run r = (.ok p, r') ∧ r'.Consistent ∧ r'.logicalPos = p ∧
      contents r'.segments = contents r.segments := by
  obtain ⟨s, hs, hstart, hlast⟩ := h.segmentIndex_spec p
  have hget : Run.get.run r = ((.ok r : Outcome IoError _), r) := rfl
  have htarget : r.target pos = p := hfits.target_eq.trans hp
  have hnn : ¬ (p : Int) < 0 := by omega
  have hfile := hfits.file_lt
  rw [hp, Int.toNat_natCast] at hfile
  let q := s.physStart + (p - s.logicalStart)
  obtain ⟨hc, hcontents⟩ := consistent_at (f := fun s => { s with file := { s.file with pos := q } })
    h.tiled h.total_eq hs ⟨fun _ => rfl, fun _ => rfl, fun _ => rfl, fun _ => rfl⟩ hstart
    (fun _ => rfl) hlast
  refine ⟨{ r with
    logicalPos := p
    current := r.segmentIndex p
    segments := r.segments.modify (r.segmentIndex p) fun s =>
      { s with file := { s.file with pos := q } } }, ?_, hc, rfl, hcontents⟩
  rw [MultiVolumeReader.seek, Run.bind_of_ok hget, htarget]
  simp only [if_neg hnn, Int.toNat_natCast]
  rw [Run.bind_of_ok (Run.set_run _ _), hs]
  simp only
  rw [Run.bind_of_ok (seekFile_run (hfile s hs) _)]
  rfl

/-- A seek before the start is refused and changes nothing. -/
theorem seek_before {r : MultiVolumeReader} {pos : SeekFrom} (hfits : r.SeekFits pos)
    (hp : pos.means r.logicalPos r.totalSize < 0) :
    (seek pos).run r = (.err ⟨.invalidInput, "seek before start"⟩, r) := by
  have hget : Run.get.run r = ((.ok r : Outcome IoError _), r) := rfl
  rw [MultiVolumeReader.seek, Run.bind_of_ok hget, hfits.target_eq]
  simp only [if_pos hp]
  rfl

/-! ## every run of operations -/

/-- One operation. -/
def perform : Op → Action Answer
  | .read len k => do return .bytes (← read len k)
  | .seek pos => do return .position (← seek pos)

/-- The values of the operation fit. -/
def OpFits (r : MultiVolumeReader) : Op → Prop
  | .read _ _ => True
  | .seek pos => r.SeekFits pos

instance (r : MultiVolumeReader) : ∀ op, Decidable (r.OpFits op)
  | .read _ _ => isTrue trivial
  | .seek pos => inferInstanceAs (Decidable (r.SeekFits pos))

/-- The reader stands for a cursor over `data` at position `pos`. -/
structure Represents (data : List UInt8) (r : MultiVolumeReader) (pos : Nat) : Prop where
  consistent : r.Consistent
  contents_eq : contents r.segments = data
  pos_eq : r.logicalPos = pos

/-- Every operation is one the cursor may make. -/
theorem perform_allowed (op : Op) {data : List UInt8} {r : MultiVolumeReader} {pos : Nat}
    (h : Represents data r pos) (hfits : r.OpFits op) :
    ∃ pos', Allowed data pos op ((perform op).run r).1 pos' ∧
      Represents data ((perform op).run r).2 pos' := by
  obtain ⟨hc, rfl, rfl⟩ := h
  cases op with
  | read len k =>
      obtain ⟨bs, r', hrun, hreads⟩ := hc.read len k
      have hperform : (perform (.read len k)).run r = (.ok (.bytes bs), r') :=
        Run.bind_of_ok hrun
      rw [hperform, hreads.bytes_eq]
      refine ⟨r.logicalPos + bs.length, .read hreads.length_le hreads.empty, ?_⟩
      exact ⟨hreads.consistent, hreads.contents_eq, hreads.pos_eq⟩
  | seek pos =>
      have htotal := hc.total_eq
      by_cases hneg : pos.means r.logicalPos r.totalSize < 0
      · have hperform : (perform (.seek pos)).run r =
            (.err ⟨.invalidInput, "seek before start"⟩, r) :=
          Run.bind_of_err (seek_before hfits hneg)
        rw [hperform]
        rw [htotal] at hneg
        exact ⟨r.logicalPos, .seekBefore hneg, hc, rfl, rfl⟩
      · obtain ⟨p, hp⟩ := Int.eq_ofNat_of_zero_le (not_lt.mp hneg)
        obtain ⟨r', hrun, hc', hpos, hcontents⟩ := hc.seek hfits hp
        have hperform : (perform (.seek pos)).run r = (.ok (.position p), r') :=
          Run.bind_of_ok hrun
        rw [hperform]
        rw [htotal] at hp
        exact ⟨p, .seek hp, hc', hcontents, hpos⟩

/-- The reader starts as a cursor at the start of the contents. -/
theorem new_represents {first : Segment} {later : List Segment} (h : Tiled 0 (first :: later))
    (hfirst : first.file.pos = first.physStart) :
    Represents (contents (first :: later)) (new (first :: later)) 0 := by
  refine ⟨?_, rfl, rfl⟩
  have hstart := h.1
  constructor
  · exact Nat.succ_pos _
  · exact h
  · have hlast := List.getLast?_eq_getElem? (l := first :: later)
    cases hget : (first :: later).getLast? with
    | none => simp at hget
    | some s =>
        rw [hget] at hlast
        have hend := h.end_eq hlast.symm (by simp)
        simp only [new, hget, Option.map_some, Option.getD_some, hend, Nat.zero_add]
  · exact Nat.zero_le _
  · intro heq
    simp [new] at heq
  · intro s hs
    simp only [new, List.getElem?_cons_zero, Option.some.injEq] at hs
    rw [← hs, hstart]
    exact Nat.zero_le 0
  · intro s hs _
    simp only [new, List.getElem?_cons_zero, Option.some.injEq] at hs
    rw [← hs, hfirst]
    simp only [new, Nat.zero_sub, Nat.add_zero]
  · intro s hs hlt
    exact absurd hlt (Nat.not_lt_zero _)

/-- **The reader refines a cursor over the concatenation of its segments**:
whatever operations it is asked for, as long as their values fit an `i64`, its
answers are ones a cursor over the contents may give. -/
theorem refines_cursor (first : Segment) (later : List Segment) (h : Tiled 0 (first :: later))
    (hfirst : first.file.pos = first.physStart) {ops : List Op}
    (hfits : Permitted OpFits (fun op => (perform op).run) ops (new (first :: later))) :
    Trace (Allowed (contents (first :: later))) 0 ops
      (answers (fun op => (perform op).run) ops (new (first :: later))) :=
  trace_of_simulation (fun _ _ op hR hok => perform_allowed op hR hok) (new_represents h hfirst)
    hfits

/-- A first volume, and two more of which one adds nothing. -/
def sampleFirst : Segment := ⟨⟨[1, 2, 3], 0⟩, 0, 0, 3⟩

@[inherit_doc sampleFirst]
def sampleLater : List Segment := [⟨⟨[8], 0⟩, 1, 3, 0⟩, ⟨⟨[9, 9, 4, 5], 1⟩, 2, 3, 2⟩]

/-- Reads across the boundaries, a seek back, one past the end and one before
the start. -/
def sampleOps : List Op :=
  [.read 9 2, .read 9 9, .read 9 9, .read 9 9, .seek (.current (-4)), .read 9 9,
    .seek (.end' 2), .read 1 1, .seek (.current (-8)), .seek (.start 3), .read 2 2]

theorem refines_cursor_sample :
    Trace (Allowed [1, 2, 3, 4, 5]) 0 sampleOps
      [.ok (.bytes [1, 2]), .ok (.bytes [3]), .ok (.bytes [4, 5]), .ok (.bytes []),
        .ok (.position 1), .ok (.bytes [2, 3]), .ok (.position 7), .ok (.bytes []),
        .err ⟨.invalidInput, "seek before start"⟩, .ok (.position 3), .ok (.bytes [4, 5])] := by
  have hanswers : answers (fun op => (perform op).run) sampleOps (new (sampleFirst :: sampleLater)) =
      [.ok (.bytes [1, 2]), .ok (.bytes [3]), .ok (.bytes [4, 5]), .ok (.bytes []),
        .ok (.position 1), .ok (.bytes [2, 3]), .ok (.position 7), .ok (.bytes []),
        .err ⟨.invalidInput, "seek before start"⟩, .ok (.position 3), .ok (.bytes [4, 5])] := by
    decide +kernel
  rw [← hanswers]
  exact refines_cursor sampleFirst sampleLater (by decide) rfl (by decide +kernel)

end MultiVolumeReader

end Unegg
