import Unegg.Reader.Follows
import Unegg.Volume.Refines

/-!
# Unegg.Volume.Reader

The `MultiVolumeReader` as a reader of archives.

`read_exact` and `read_to_end` are the loops of the standard library around
`read`; how much each `read` delivers is up to the operating system
(`VolumeReader.amounts`).  Whatever it is, the reader behaves as a cursor on the
contents of its segments (`emulates`).
-/

namespace Unegg

open Prog

/-- A reader of volumes, and what the operating system is going to deliver on
each `read`. -/
structure VolumeReader where
  reader : MultiVolumeReader
  amounts : Nat → Nat

namespace VolumeReader

abbrev Action := Run VolumeReader IoError

def read (len : Nat) : Action (List UInt8) := ⟨fun v =>
  let r := (MultiVolumeReader.read len (v.amounts 0)).run v.reader
  (r.1, ⟨r.2, fun i => v.amounts (i + 1)⟩)⟩

def seek (pos : SeekFrom) : Action Nat :=
  Run.zoom reader (fun r v => { v with reader := r }) (MultiVolumeReader.seek pos)

/-- One pass of a loop that reads `p.1` more bytes behind `p.2`, and what it does when
there are none. -/
def fillStep (atEnd : List UInt8 → Except IoError (List UInt8)) (p : Nat × List UInt8) :
    Action (Flow (Nat × List UInt8) (List UInt8)) :=
  if p.1 = 0 then return .done p.2
  else do
    let bs ← read p.1
    if bs = [] then return .done (← Run.ofExcept (atEnd p.2))
    else return .next (p.1 - bs.length, p.2 ++ bs)

/-- `read_exact`. -/
def readExact (n : Nat) : Action (List UInt8) :=
  Run.loop (fillStep fun _ => .error .unexpectedEof) (n + 1) (n, [])

/-- `take(n).read_to_end`. -/
def readToEnd (n : Nat) : Action (List UInt8) :=
  Run.loop (fillStep .ok) (n + 1) (n, [])

instance : Reader VolumeReader where
  readExact n := Run.mapErr .io (readExact n)
  readUpTo n := Run.mapErr .io (readToEnd n)
  streamPosition := Run.mapErr .io (seek (.current 0))
  seekStart p := Run.mapErr .io do let _ ← seek (.start (UInt64.ofNat p))
  seekCurrent k := Run.mapErr .io do let _ ← seek (.current (Int64.ofInt k))
  passBound := ⟨fun v => (.ok (v.reader.totalSize + 1), v)⟩

/-! ## the files -/

/-- The files have the bytes they had. -/
def SameFiles (r r' : MultiVolumeReader) : Prop :=
  r'.segments.map (·.file.data) = r.segments.map (·.file.data)

instance : Std.Refl SameFiles := ⟨fun _ => rfl⟩

instance : IsTrans MultiVolumeReader SameFiles := ⟨fun _ _ _ h h' => h'.trans h⟩

/-- A change that leaves the bytes of a file leaves those of all. -/
theorem sameFiles_modify (r : MultiVolumeReader) (i : Nat) {f : Segment → Segment}
    (hf : ∀ s, (f s).file.data = s.file.data) :
    SameFiles r { r with segments := r.segments.modify i f } := by
  refine List.ext_getElem? fun j => ?_
  rw [List.getElem?_map, List.getElem?_map, List.getElem?_modify]
  split <;> simp [Option.map_map, Function.comp_def, hf]

theorem sameFiles_seekFile (i p : Nat) :
    Run.Steps SameFiles (MultiVolumeReader.seekFile i p) := by
  intro r
  simp only [MultiVolumeReader.seekFile]
  split
  · exact sameFiles_modify r i fun _ => rfl
  · exact Std.Refl.refl r

/-- A read of one file moves its position only. -/
theorem sameFiles_readFile (i want k : Nat) :
    Run.Steps SameFiles (MultiVolumeReader.readFile i want k) := by
  intro r
  simp only [MultiVolumeReader.readFile]
  split
  · exact Std.Refl.refl r
  · exact sameFiles_modify r i fun _ => rfl

theorem sameFiles_readStep (len k : Nat) (u : Unit) :
    Run.Steps SameFiles (MultiVolumeReader.readStep len k u) := by
  intro r
  have hget : Run.get.run r = ((.ok r : Outcome IoError _), r) := rfl
  rw [MultiVolumeReader.readStep, Run.bind_of_ok hget]
  split
  · exact Std.Refl.refl r
  · split
    · have hset : (Run.set { r with current := r.current + 1 } : Run _ IoError Unit).run r =
          (.ok (), { r with current := r.current + 1 }) := rfl
      rw [Run.bind_of_ok hset]
      have hnext : SameFiles r { r with current := r.current + 1 } := rfl
      refine IsTrans.trans _ _ _ hnext ?_
      split
      · exact Std.Refl.refl _
      · exact Run.Steps.bind (sameFiles_seekFile _ _) (fun _ => .pure _) _
    · refine Run.Steps.bind (sameFiles_readFile _ _ _) (fun bytes => .bind ?_ fun _ => .pure _) r
      exact fun _ => rfl

/-- A read across files leaves their bytes. -/
theorem sameFiles_read (len k : Nat) : Run.Steps SameFiles (MultiVolumeReader.read len k) :=
  .bind (fun _ => rfl) fun _ => .loop (sameFiles_readStep len k) _ _

/-- A seek leaves the bytes of the files. -/
theorem sameFiles_seek (pos : SeekFrom) : Run.Steps SameFiles (MultiVolumeReader.seek pos) := by
  intro r
  have hget : Run.get.run r = ((.ok r : Outcome IoError _), r) := rfl
  rw [MultiVolumeReader.seek, Run.bind_of_ok hget]
  simp only
  split
  · exact Std.Refl.refl r
  · refine Run.step_bind rfl fun _ r₁ hset => ?_
    split
    · exact Std.Refl.refl _
    · exact Run.Steps.bind (sameFiles_seekFile _ _) (fun _ => .pure _) _

/-! ## behaving as a cursor -/

/-- The reader stands at `p` of `data`; its files are not so long that a seek fails. -/
structure At (data : List UInt8) (p : Nat) (v : VolumeReader) : Prop where
  represents : MultiVolumeReader.Represents data v.reader p
  small : ∀ s ∈ v.reader.segments, s.file.data.length < 2 ^ 61
  pos_le : p ≤ data.length + 2 ^ 32

variable {data : List UInt8} {v : VolumeReader} {p : Nat}

theorem small_of_sameFiles {r r' : MultiVolumeReader} (h : SameFiles r r')
    (hsmall : ∀ s ∈ r.segments, s.file.data.length < 2 ^ 61) :
    ∀ s ∈ r'.segments, s.file.data.length < 2 ^ 61 := by
  intro s hs
  have hmem : s.file.data ∈ r'.segments.map (·.file.data) := List.mem_map_of_mem hs
  rw [h] at hmem
  obtain ⟨t, ht, heq⟩ := List.mem_map.mp hmem
  rw [← heq]
  exact hsmall t ht

/-- What one `read` gives. -/
theorem At.read (h : At data p v) (len : Nat) :
    ∃ n v', (read len).run v = (.ok ((data.drop p).take n), v') ∧ n ≤ len ∧
      n ≤ data.length - p ∧ (n = 0 → len = 0 ∨ data.length ≤ p) ∧ At data (p + n) v' := by
  obtain ⟨⟨hc, rfl, rfl⟩, hsmall, hpos⟩ := h
  obtain ⟨bs, r', hrun, hreads⟩ := hc.read len (v.amounts 0)
  have hlen := hreads.length_le
  refine ⟨bs.length, ⟨r', fun i => v.amounts (i + 1)⟩, ?_, by omega, by omega, hreads.empty, ?_⟩
  · simp only [VolumeReader.read, hrun]
    rw [← hreads.bytes_eq]
  · refine ⟨⟨hreads.consistent, hreads.contents_eq, hreads.pos_eq⟩, ?_, by omega⟩
    exact small_of_sameFiles ((sameFiles_read _ _).of_run hrun) hsmall

/-- A seek within the limit lands where the cursor does. -/
theorem At.seek (hdata : data.length < 2 ^ 61) (h : At data p v) {pos : SeekFrom} {q : Nat}
    (hq : pos.means p data.length = q) (hle : q ≤ data.length + 2 ^ 32) :
    ∃ v', (seek pos).run v = (.ok q, v') ∧ At data q v' := by
  obtain ⟨⟨hc, rfl, rfl⟩, hsmall, hpos⟩ := h
  have htotal := hc.total_eq
  have hmeans : pos.means v.reader.logicalPos v.reader.totalSize = q := by rw [htotal, hq]
  have hfits : v.reader.SeekFits pos := by
    refine ⟨?_, by rw [hmeans]; omega, by rw [hmeans]; omega, ?_⟩
    · cases pos <;> simp only [MultiVolumeReader.base] <;> omega
    · rw [hmeans, Int.toNat_natCast]
      intro s hs
      have hmem := List.mem_of_getElem? hs
      obtain ⟨hplaced, -⟩ := hc.tiled.placed hs
      have := hsmall s hmem
      omega
  obtain ⟨r', hrun, hc', hpos', hcontents⟩ := hc.seek hfits hmeans
  refine ⟨{ v with reader := r' }, ?_, ⟨⟨hc', hcontents, hpos'⟩, ?_, hle⟩⟩
  · simp only [VolumeReader.seek, Run.zoom, hrun]
  · exact small_of_sameFiles ((sameFiles_seek _).of_run hrun) hsmall

theorem take_append_take (p m n : Nat) :
    (data.drop p).take m ++ (data.drop (p + m)).take n = (data.drop p).take (m + n) := by
  rw [List.take_add, List.drop_drop]

section Fill

variable {atEnd : List UInt8 → Except IoError (List UInt8)} {n k : Nat} {buf : List UInt8}

/-- One pass takes some of the bytes that are there. -/
theorem At.fillStep (h : At data p v) (hzero : n ≠ 0) (hlt : p < data.length) :
    ∃ m v', 0 < m ∧ m ≤ n ∧ m ≤ data.length - p ∧ At data (p + m) v' ∧
      (fillStep atEnd (n, buf)).run v =
        (.ok (.next (n - m, buf ++ (data.drop p).take m)), v') := by
  obtain ⟨m, v', hread, hle, hleft, hempty, h'⟩ := h.read n
  have hpos : m ≠ 0 := fun hm => by
    have := hempty hm
    omega
  have hlen : ((data.drop p).take m).length = m := by
    rw [List.length_take, List.length_drop]
    omega
  have hne : (data.drop p).take m ≠ [] := by
    intro hnil
    rw [hnil, List.length_nil] at hlen
    omega
  refine ⟨m, v', Nat.pos_of_ne_zero hpos, hle, hleft, h', ?_⟩
  rw [VolumeReader.fillStep, if_neg hzero, Run.bind_of_ok hread, if_neg hne, hlen]
  rfl

/-- The loop over bytes that are all there. -/
theorem At.fill (h : At data p v) (hn : n ≤ data.length - p) (hk : n < k) :
    ∃ v', (Run.loop (VolumeReader.fillStep atEnd) k (n, buf)).run v =
      (.ok (buf ++ (data.drop p).take n), v') ∧ At data (p + n) v' := by
  induction k generalizing n p v buf with
  | zero => omega
  | succ k ih =>
      by_cases hzero : n = 0
      · subst hzero
        have hdone : (VolumeReader.fillStep atEnd (0, buf)).run v = (.ok (.done buf), v) := rfl
        exact ⟨v, by rw [Run.loop_done hdone]; simp, h⟩
      · obtain ⟨m, v₁, hpos, hle, hleft, h₁, hnext⟩ :=
          @At.fillStep data v p atEnd n buf h hzero (by omega)
        obtain ⟨v', hrun, h'⟩ := @ih v₁ (p + m) (n - m) (buf ++ (data.drop p).take m) h₁ (by omega)
          (by omega)
        have hsum : m + (n - m) = n := by omega
        refine ⟨v', ?_, by rwa [Nat.add_assoc, hsum] at h'⟩
        rw [Run.loop_next hnext, hrun, List.append_assoc, take_append_take, hsum]

/-- The loop over bytes that are not. -/
theorem At.fill_end (h : At data p v) (hn : data.length - p < n) (hk : n < k) :
    ∃ v', At data (max p data.length) v' ∧
      (Run.loop (VolumeReader.fillStep atEnd) k (n, buf)).run v =
        (Run.ofExcept (atEnd (buf ++ data.drop p)) : Action _).run v' := by
  induction k generalizing n p v buf with
  | zero => omega
  | succ k ih =>
      have hzero : n ≠ 0 := by omega
      by_cases hlt : p < data.length
      · obtain ⟨m, v₁, hpos, hle, hleft, h₁, hnext⟩ := @At.fillStep data v p atEnd n buf h hzero hlt
        obtain ⟨v', h', hrun⟩ := @ih v₁ (p + m) (n - m) (buf ++ (data.drop p).take m) h₁ (by omega)
          (by omega)
        have hmax : max (p + m) data.length = max p data.length := by omega
        refine ⟨v', hmax ▸ h', ?_⟩
        rw [Run.loop_next hnext, hrun, List.append_assoc, ← List.drop_drop, List.take_append_drop]
      · rw [not_lt] at hlt
        obtain ⟨m, v', hread, -, hleft, -, h'⟩ := h.read n
        obtain rfl : m = 0 := by omega
        rw [List.take_zero] at hread
        refine ⟨v', by rwa [Nat.max_eq_left hlt], ?_⟩
        rw [List.drop_eq_nil_of_le hlt, List.append_nil, Run.loop, VolumeReader.fillStep,
          if_neg hzero, bind_assoc, Run.bind_of_ok hread, if_pos rfl]
        cases atEnd buf <;> rfl

end Fill

/-- **The reader behaves as a cursor** on the contents of its segments. -/
theorem emulates (hdata : data.length < 2 ^ 61) :
    Reader.Emulates data (data.length + 2 ^ 32) (At data) where
  readExact := by
    intro n p v h hn
    obtain ⟨v', hrun, h'⟩ := @At.fill data v p (fun _ => .error .unexpectedEof) n (n + 1) [] h hn
      (Nat.lt_succ_self n)
    exact ⟨v', Run.mapErr_of_ok hrun, h'⟩
  readExact_eof := by
    intro n p v h hn
    obtain ⟨v', h', hrun⟩ := @At.fill_end data v p (fun _ => .error .unexpectedEof) n (n + 1) [] h
      hn (Nat.lt_succ_self n)
    exact ⟨v', Run.mapErr_err.mpr ⟨_, hrun, rfl⟩, h'⟩
  readUpTo := by
    intro n p v h
    by_cases hn : n ≤ data.length - p
    · obtain ⟨v', hrun, h'⟩ := @At.fill data v p .ok n (n + 1) [] h hn (Nat.lt_succ_self n)
      have hlen : ((data.drop p).take n).length = n := by
        rw [List.length_take, List.length_drop]
        omega
      exact ⟨v', Run.mapErr_of_ok hrun, by rwa [hlen]⟩
    · obtain ⟨v', h', hrun⟩ := @At.fill_end data v p .ok n (n + 1) [] h (not_le.mp hn)
        (Nat.lt_succ_self n)
      have htake : (data.drop p).take n = data.drop p := by
        rw [List.take_eq_self_iff, List.length_drop]
        omega
      have hpos : p + (data.drop p).length = max p data.length := by
        rw [List.length_drop]
        omega
      rw [htake, hpos]
      exact ⟨v', Run.mapErr_of_ok hrun, h'⟩
  streamPosition := by
    intro p v h
    obtain ⟨v', hrun, h'⟩ := @At.seek data v p hdata h (.current 0) p (by simp [SeekFrom.means])
      h.pos_le
    exact ⟨v', Run.mapErr_of_ok hrun, h'⟩
  seekStart := by
    intro p q v hp h
    have hmeans : (SeekFrom.start (UInt64.ofNat p)).means q data.length = p := by
      have hnat : (UInt64.ofNat p).toNat = p := UInt64.toNat_ofNat_of_lt' (by
        have : UInt64.size = 2 ^ 64 := rfl
        omega)
      simp [SeekFrom.means, hnat]
    obtain ⟨v', hrun, h'⟩ := h.seek hdata hmeans hp
    exact ⟨v', Run.mapErr_of_ok (by rw [Run.bind_of_ok hrun]; rfl), h'⟩
  seekCurrent := by
    intro k q p v hq hle h
    have hpos := h.pos_le
    have hmeans : (SeekFrom.current (Int64.ofInt k)).means p data.length = q := by
      have hint : (Int64.ofInt k).toInt = k := Int64.toInt_ofInt_of_le (by omega) (by omega)
      simp [SeekFrom.means, hint, hq]
    obtain ⟨v', hrun, h'⟩ := h.seek hdata hmeans hle
    exact ⟨v', Run.mapErr_of_ok (by rw [Run.bind_of_ok hrun]; rfl), h'⟩
  passBound := by
    intro p v h
    refine ⟨v, ?_, h⟩
    obtain ⟨hc, rfl, -⟩ := h.represents
    simp only [Reader.passBound, hc.total_eq]

end VolumeReader

end Unegg
