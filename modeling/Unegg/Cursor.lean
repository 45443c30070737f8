import Unegg.Run
import Unegg.Bytes
import Unegg.Error

/-!
# Unegg.Cursor

The byte source every reader of the program is used as: a byte list and a
position (`std::io::Cursor`).  The position may lie past the end; a read there
finds no bytes.  Positions are unbounded, a stream being shorter than `2^63`.

`Cursor.rest` — the bytes from the position on — is what the reading
lemmas are stated about: a read that succeeds takes a prefix off `rest`
and moves the position by its length.
-/

namespace Unegg

open Prog Bytes

structure Cursor where
  data : List UInt8
  pos : Nat
  deriving Repr, DecidableEq

/-- A computation that reads an archive. -/
abbrev Parser := Run Cursor EggError

namespace Cursor

/-- The bytes from the position on. -/
def rest (c : Cursor) : List UInt8 := c.data.drop c.pos

/-- The cursor `n` bytes further. -/
def advance (c : Cursor) (n : Nat) : Cursor := { c with pos := c.pos + n }

@[simp] theorem advance_data (c : Cursor) (n : Nat) : (c.advance n).data = c.data := rfl

@[simp] theorem advance_pos (c : Cursor) (n : Nat) : (c.advance n).pos = c.pos + n := rfl

@[simp] theorem advance_zero (c : Cursor) : c.advance 0 = c := rfl

@[simp] theorem advance_advance (c : Cursor) (m n : Nat) :
    (c.advance m).advance n = c.advance (m + n) := by
  simp [advance, Nat.add_assoc]

/-- Advancing drops as many bytes of what is left. -/
theorem rest_advance (c : Cursor) (n : Nat) : (c.advance n).rest = c.rest.drop n := by
  simp [rest, List.drop_drop]

/-- Advancing over a known prefix of the rest leaves what follows it. -/
theorem rest_advance_of_append {c : Cursor} {bs r : List UInt8} {n : Nat}
    (h : c.rest = bs ++ r) (hn : bs.length = n) : (c.advance n).rest = r := by
  rw [rest_advance, h, drop_append_of_length hn]

/-- What is left is counted from the position, and is nothing behind the end. -/
theorem length_rest (c : Cursor) : c.rest.length = c.data.length - c.pos := by
  simp [rest]

end Cursor

/-! ## reading -/

/-- `read_exact` of `n` bytes.  At the end of the data it fails and leaves the
position there. -/
def readExact (n : Nat) : Parser (List UInt8) := ⟨fun c =>
  if n ≤ c.rest.length then (.ok (c.rest.take n), c.advance n)
  else (.err (.io .unexpectedEof), { c with pos := c.data.length })⟩

def readU8 : Parser UInt8 := do
  let buf ← readExact 1
  return UInt8.ofNat (ofLE buf)

def readU16 : Parser UInt16 := do
  let buf ← readExact 2
  return UInt16.ofNat (ofLE buf)

def readU32 : Parser UInt32 := do
  let buf ← readExact 4
  return UInt32.ofNat (ofLE buf)

def readU64 : Parser UInt64 := do
  let buf ← readExact 8
  return UInt64.ofNat (ofLE buf)

/-- `take(n).read_to_end`: what is left of the next `n` bytes. -/
def readUpTo (n : Nat) : Parser (List UInt8) := ⟨fun c =>
  (.ok (c.rest.take n), c.advance (c.rest.take n).length)⟩

/-- Read exactly `n` bytes, growing the buffer from the data actually present. -/
def readExactCapped (n : Nat) : Parser (List UInt8) := do
  let buf ← readUpTo n
  if buf.length ≠ n then Run.throw .corruptedFile else return buf

/-- `stream_position`. -/
def streamPosition : Parser Nat := ⟨fun c => (.ok c.pos, c)⟩

/-- `seek(SeekFrom::Start(p))`. -/
def seekStart (p : Nat) : Parser Unit := ⟨fun c => (.ok (), { c with pos := p })⟩

/-- `seek(SeekFrom::Current(k))`. -/
def seekCurrent (k : Int) : Parser Unit := ⟨fun c =>
  if (c.pos : Int) + k < 0 then (.err (.io .negativeSeek), c)
  else (.ok (), { c with pos := ((c.pos : Int) + k).toNat })⟩

def skip (n : Nat) : Parser Unit := seekCurrent n

/-! ## what a read finds

Each of these takes what it reads off the rest of the cursor: the run, and
the rest that is left. -/

section Forward

variable {c : Cursor} {r : List UInt8}

/-- A read of the bytes that come next gives them. -/
theorem readExact_of_rest {bs : List UInt8} (h : c.rest = bs ++ r) {n : Nat}
    (hn : bs.length = n) :
    (readExact n).run c = (.ok bs, c.advance n) ∧ (c.advance n).rest = r := by
  have hle : n ≤ c.rest.length := by rw [h, List.length_append]; omega
  refine ⟨?_, Cursor.rest_advance_of_append h hn⟩
  simp only [readExact, if_pos hle]
  rw [h, take_append_of_length hn]

/-- A byte that comes next is read. -/
theorem readU8_of_rest {v : UInt8} (h : c.rest = v :: r) :
    readU8.run c = (.ok v, c.advance 1) ∧ (c.advance 1).rest = r := by
  have hv : c.rest = [v] ++ r := h
  obtain ⟨hr, hrest⟩ := readExact_of_rest hv (List.length_singleton)
  refine ⟨?_, hrest⟩
  rw [readU8, Run.bind_of_ok hr]
  simp [ofLE]

/-- Two bytes that come next are read as the number they encode. -/
theorem readU16_of_rest {v : UInt16} (h : c.rest = le16 v ++ r) :
    readU16.run c = (.ok v, c.advance 2) ∧ (c.advance 2).rest = r := by
  obtain ⟨hr, hrest⟩ := readExact_of_rest h (length_le16 v)
  refine ⟨?_, hrest⟩
  rw [readU16, Run.bind_of_ok hr]
  simp

/-- Four bytes that come next are read as the number they encode. -/
theorem readU32_of_rest {v : UInt32} (h : c.rest = le32 v ++ r) :
    readU32.run c = (.ok v, c.advance 4) ∧ (c.advance 4).rest = r := by
  obtain ⟨hr, hrest⟩ := readExact_of_rest h (length_le32 v)
  refine ⟨?_, hrest⟩
  rw [readU32, Run.bind_of_ok hr]
  simp

/-- Eight bytes that come next are read as the number they encode. -/
theorem readU64_of_rest {v : UInt64} (h : c.rest = le64 v ++ r) :
    readU64.run c = (.ok v, c.advance 8) ∧ (c.advance 8).rest = r := by
  obtain ⟨hr, hrest⟩ := readExact_of_rest h (length_le64 v)
  refine ⟨?_, hrest⟩
  rw [readU64, Run.bind_of_ok hr]
  simp

/-- A read in portions of the bytes that come next gives them. -/
theorem readExactCapped_of_rest {bs : List UInt8} (h : c.rest = bs ++ r) {n : Nat}
    (hn : bs.length = n) :
    (readExactCapped n).run c = (.ok bs, c.advance n) ∧ (c.advance n).rest = r := by
  have htake : c.rest.take n = bs := by rw [h, take_append_of_length hn]
  have hr : (readUpTo n).run c = (.ok bs, c.advance n) := by
    simp only [readUpTo, htake, hn]
  refine ⟨?_, Cursor.rest_advance_of_append h hn⟩
  rw [readExactCapped, Run.bind_of_ok hr, if_neg (not_not.mpr hn), Run.pure_run]

/-- The `u32` at the head of the rest, if there are four bytes. -/
theorem readU32_run (c : Cursor) : readU32.run c =
    if 4 ≤ c.rest.length then (.ok (UInt32.ofNat (ofLE (c.rest.take 4))), c.advance 4)
    else (.err (.io .unexpectedEof), { c with pos := c.data.length }) := by
  rw [readU32, Run.bind_run, readExact]
  by_cases h : 4 ≤ c.rest.length
  · simp only [if_pos h, Run.pure_run]
  · simp only [if_neg h]

/-- A seek forward never fails. -/
theorem seekCurrent_nat (c : Cursor) (n : Nat) :
    (seekCurrent n).run c = (.ok (), c.advance n) := by
  have hnn : ¬ (c.pos : Int) + n < 0 := by omega
  have hto : ((c.pos : Int) + n).toNat = c.pos + n := by omega
  simp only [seekCurrent, if_neg hnn, hto, Cursor.advance]

theorem skip_run (c : Cursor) (n : Nat) : (skip n).run c = (.ok (), c.advance n) :=
  seekCurrent_nat c n

/-- Un-reading the four bytes of a signature. -/
theorem seekCurrent_back (c : Cursor) :
    (seekCurrent (-4)).run (c.advance 4) = (.ok (), c) := by
  have hnn : ¬ ((c.advance 4).pos : Int) + (-4) < 0 := by simp
  have hto : (((c.advance 4).pos : Int) + (-4)).toNat = c.pos := by simp
  simp only [seekCurrent, if_neg hnn, hto, Cursor.advance_data]

end Forward

/-! ## what a successful read says -/

section Inverse

variable {c c' : Cursor}

/-- A read that succeeds had enough bytes left, and gives the first of them. -/
theorem readExact_ok {n : Nat} {bs : List UInt8} (h : (readExact n).run c = (.ok bs, c')) :
    n ≤ c.rest.length ∧ bs = c.rest.take n ∧ c' = c.advance n := by
  simp only [readExact] at h
  split at h
  · next hle =>
      simp only [Prod.mk.injEq, Outcome.ok.injEq] at h
      exact ⟨hle, h.1.symm, h.2.symm⟩
  · simp at h

theorem readU8_ok {v : UInt8} (h : readU8.run c = (.ok v, c')) :
    1 ≤ c.rest.length ∧ c' = c.advance 1 := by
  rw [readU8, Run.bind_ok] at h
  obtain ⟨bs, c₁, hr, hp⟩ := h
  obtain ⟨hle, -, rfl⟩ := readExact_ok hr
  simp only [Run.pure_run, Prod.mk.injEq] at hp
  exact ⟨hle, hp.2.symm⟩

theorem readU16_ok {v : UInt16} (h : readU16.run c = (.ok v, c')) :
    2 ≤ c.rest.length ∧ c' = c.advance 2 := by
  rw [readU16, Run.bind_ok] at h
  obtain ⟨bs, c₁, hr, hp⟩ := h
  obtain ⟨hle, -, rfl⟩ := readExact_ok hr
  simp only [Run.pure_run, Prod.mk.injEq] at hp
  exact ⟨hle, hp.2.symm⟩

/-- A `u32` that was read stands at the head of the rest. -/
theorem readU32_ok {v : UInt32} (h : readU32.run c = (.ok v, c')) :
    4 ≤ c.rest.length ∧ c' = c.advance 4 ∧ c.rest.take 4 = le32 v := by
  rw [readU32, Run.bind_ok] at h
  obtain ⟨bs, c₁, hr, hp⟩ := h
  obtain ⟨hle, rfl, rfl⟩ := readExact_ok hr
  simp only [Run.pure_run, Prod.mk.injEq, Outcome.ok.injEq] at hp
  have hlen : (c.rest.take 4).length = 4 := by rw [List.length_take]; omega
  refine ⟨hle, hp.2.symm, ?_⟩
  rw [← hp.1, le32_ofLE hlen]

theorem readU64_ok {v : UInt64} (h : readU64.run c = (.ok v, c')) :
    8 ≤ c.rest.length ∧ c' = c.advance 8 := by
  rw [readU64, Run.bind_ok] at h
  obtain ⟨bs, c₁, hr, hp⟩ := h
  obtain ⟨hle, -, rfl⟩ := readExact_ok hr
  simp only [Run.pure_run, Prod.mk.injEq] at hp
  exact ⟨hle, hp.2.symm⟩

/-- A read in portions that succeeds gives the bytes that came next. -/
theorem readExactCapped_ok {n : Nat} {bs : List UInt8}
    (h : (readExactCapped n).run c = (.ok bs, c')) :
    bs.length = n ∧ bs = c.rest.take n ∧ c' = c.advance n := by
  have hr : (readUpTo n).run c = (.ok (c.rest.take n), c.advance (c.rest.take n).length) := rfl
  rw [readExactCapped, Run.bind_of_ok hr] at h
  split at h
  · simp at h
  · next hlen =>
      rw [not_not] at hlen
      simp only [Run.pure_run, Prod.mk.injEq, Outcome.ok.injEq] at h
      refine ⟨by rw [← h.1]; exact hlen, h.1.symm, ?_⟩
      rw [← h.2, hlen]

/-- A skip only advances. -/
theorem skip_ok {n : Nat} {u : Unit} (h : (skip n).run c = (.ok u, c')) : c' = c.advance n := by
  rw [skip_run] at h
  simp only [Prod.mk.injEq] at h
  exact h.2.symm

end Inverse

/-! ## the data stays -/

/-- A step of the reader that leaves the data alone. -/
def SameData (c c' : Cursor) : Prop := c'.data = c.data

instance : Std.Refl SameData := ⟨fun _ => rfl⟩

instance : IsTrans Cursor SameData := ⟨fun _ _ _ h h' => h'.trans h⟩

/-- A read leaves the data as it is, also when it fails. -/
theorem sameData_readExact (n : Nat) : Run.Steps SameData (readExact n) := by
  intro c
  simp only [readExact]
  split <;> exact rfl

theorem sameData_readU8 : Run.Steps SameData readU8 :=
  .bind (sameData_readExact 1) fun _ => .pure _

theorem sameData_readU16 : Run.Steps SameData readU16 :=
  .bind (sameData_readExact 2) fun _ => .pure _

theorem sameData_readU32 : Run.Steps SameData readU32 :=
  .bind (sameData_readExact 4) fun _ => .pure _

theorem sameData_seekStart (p : Nat) : Run.Steps SameData (seekStart p) := fun _ => rfl

/-- A seek leaves the data as it is. -/
theorem sameData_seekCurrent (k : Int) : Run.Steps SameData (seekCurrent k) := by
  intro c
  simp only [seekCurrent]
  split <;> rfl

end Unegg
