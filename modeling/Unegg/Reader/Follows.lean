import Unegg.Reader

/-!
# Unegg.Reader.Follows

A reader that behaves as a cursor parses as one (`openArchive_follows`).

`Emulates` says what behaving as a cursor is, call by call; a reader need not
obey it for seeks before the start or beyond `limit`.  `Follows` carries it
through the parser, with what is known of the position before and after: the
parser only skips over a field from inside the data, and only un-reads what it
has read.
-/

namespace Unegg

namespace Reader

open Prog Bytes Run

variable {ρ : Type} {data : List UInt8} {limit : Nat} {At : Nat → ρ → Prop}
  {α β γ : Type}

/-- The reader stands where the cursor on `data` does. -/
def Stands (data : List UInt8) (At : Nat → ρ → Prop) (c : Cursor) (r : ρ) : Prop :=
  c.data = data ∧ At c.pos r

/-- The reader stands somewhere, and has the data of the cursor. -/
def Astray (data : List UInt8) (At : Nat → ρ → Prop) (c : Cursor) (r : ρ) : Prop :=
  c.data = data ∧ ∃ p, At p r

/-- The reader behaves as a cursor on `data`: `At p r` says that it stands at `p`. -/
structure Emulates [Reader ρ] (data : List UInt8) (limit : Nat) (At : Nat → ρ → Prop) : Prop where
  readExact : ∀ n p r, At p r → n ≤ data.length - p →
    ∃ r', (Reader.readExact n).run r = (.ok ((data.drop p).take n), r') ∧ At (p + n) r'
  readExact_eof : ∀ n p r, At p r → data.length - p < n →
    ∃ r', (Reader.readExact n).run r = (.err (.io .unexpectedEof), r') ∧ At (max p data.length) r'
  readUpTo : ∀ n p r, At p r → ∃ r', (Reader.readUpTo n).run r = (.ok ((data.drop p).take n), r') ∧
    At (p + ((data.drop p).take n).length) r'
  streamPosition : ∀ p r, At p r → ∃ r', Reader.streamPosition.run r = (.ok p, r') ∧ At p r'
  seekStart : ∀ p q r, p ≤ limit → At q r → ∃ r', (Reader.seekStart p).run r = (.ok (), r') ∧ At p r'
  seekCurrent : ∀ (k : Int) (q p : Nat) r, (p : Int) + k = q → q ≤ limit → At p r →
    ∃ r', (Reader.seekCurrent k).run r = (.ok (), r') ∧ At q r'
  passBound : ∀ p r, At p r → ∃ r', Reader.passBound.run r = (.ok (data.length + 1), r') ∧ At p r'

/-- `m'` does on the reader what `m` does on the cursor, from a position with
`I`, and leaves both at one with `J`. -/
def Follows (data : List UInt8) (At : Nat → ρ → Prop) (I J : Nat → Prop) (m : Parse Cursor α)
    (m' : Parse ρ α) : Prop :=
  ∀ p r, I p → At p r → Alike (fun _ c r => Stands data At c r ∧ J c.pos) (Astray data At)
    (m.run ⟨data, p⟩) (m'.run r)

/-- Any position. -/
abbrev anywhere (_ : Nat) : Prop := True

/-- A position inside the data, with `n` bytes before it. -/
abbrev behind (data : List UInt8) (n p : Nat) : Prop := n ≤ p ∧ p ≤ data.length

/-! ## composition -/

namespace Follows

variable {I J K : Nat → Prop} {m n : Parse Cursor α} {m' n' : Parse ρ α}

/-- A value is the same over any reader. -/
theorem pure (a : α) : Follows data At I I (Pure.pure a) (Pure.pure a) :=
  fun _ _ hI hr => .ok ⟨⟨rfl, hr⟩, hI⟩

/-- An error is the same over any reader. -/
theorem throw (e : EggError) : Follows data At I J (Run.throw e : Parse Cursor α) (Run.throw e) :=
  fun p _ _ hr => .err ⟨rfl, p, hr⟩

/-- The second parser starts where the first stops, over both readers. -/
theorem bind {f : α → Parse Cursor β} {f' : α → Parse ρ β} (hm : Follows data At I J m m')
    (hf : ∀ a, Follows data At J K (f a) (f' a)) : Follows data At I K (m >>= f) (m' >>= f') := by
  intro p r hI hr
  refine Alike.bind (hm p r hI hr) ?_
  rintro a ⟨d, q⟩ r' ⟨⟨rfl, hr'⟩, hJ⟩
  exact hf a q r' hJ hr'

/-- A test follows if both of its branches do. -/
theorem ite {P : Prop} [Decidable P] (h : Follows data At I J m m')
    (h' : Follows data At I J n n') :
    Follows data At I J (if P then m else n) (if P then m' else n') := by
  split
  · exact h
  · exact h'

/-- A parser may be asked for less, or started from fewer positions. -/
theorem weaken {I' J' : Nat → Prop} (h : Follows data At I J m m') (hI : ∀ p, I' p → I p)
    (hJ : ∀ p, J p → J' p) : Follows data At I' J' m m' :=
  fun p r hp hr => (h p r (hI p hp) hr).mono (fun _ _ _ hq => ⟨hq.1, hJ _ hq.2⟩) fun _ _ he => he

/-- What follows from everywhere follows from each position. -/
theorem from_anywhere (h : Follows data At anywhere J m m') : Follows data At I J m m' :=
  h.weaken (fun _ _ => trivial) fun _ => id

/-- The position behind may be forgotten. -/
theorem to_anywhere (h : Follows data At I J m m') : Follows data At I anywhere m m' :=
  h.weaken (fun _ => id) fun _ _ => trivial

/-- A loop follows if its passes keep to the positions they start from. -/
theorem loop {body : β → Parse Cursor (Flow β γ)} {body' : β → Parse ρ (Flow β γ)}
    (h : ∀ b, Follows data At I I (body b) (body' b)) (n : Nat) (b : β) :
    Follows data At I I (Run.loop body n b) (Run.loop body' n b) := by
  induction n generalizing b with
  | zero => exact fun p _ _ hr => .hang ⟨rfl, p, hr⟩
  | succ n ih =>
      refine (h b).bind fun f => ?_
      cases f with
      | next b' => exact ih b'
      | done c => exact .pure c

end Follows

/-! ## reading -/

section Emulates

variable [Reader ρ] (h : Emulates data limit At)
include h

/-- A read follows: the same bytes, or the same error at the end of the data. -/
theorem follows_readExact {n : Nat} (hn : 0 < n) :
    Follows data At anywhere (behind data n) (readExact n : Parse Cursor _) (readExact n) := by
  intro p r _ hr
  have hcursor : (readExact n : Parse Cursor _).run ⟨data, p⟩ =
      (Unegg.readExact n).run ⟨data, p⟩ := rfl
  have hlen : (⟨data, p⟩ : Cursor).rest.length = data.length - p := Cursor.length_rest _
  rw [hcursor]
  simp only [Unegg.readExact, hlen]
  by_cases hle : n ≤ data.length - p
  · obtain ⟨r', hrun, hr'⟩ := h.readExact n p r hr hle
    rw [if_pos hle, hrun]
    exact .ok ⟨⟨rfl, hr'⟩, Nat.le_add_left n p, by dsimp only [Cursor.advance]; omega⟩
  · obtain ⟨r', hrun, hr'⟩ := h.readExact_eof n p r hr (not_le.mp hle)
    rw [if_neg hle, hrun]
    exact .err ⟨rfl, _, hr'⟩

/-- An attempt to read a signature; behind the end the reader may stand further on than
the cursor. -/
theorem attempt_readU32 {p : Nat} {r : ρ} (hr : At p r) :
    (∃ sig r', p + 4 ≤ data.length ∧
        (Run.attempt readU32 : Parse Cursor _).run ⟨data, p⟩ = (.ok (.ok sig), ⟨data, p + 4⟩) ∧
        (Run.attempt readU32 : Parse ρ _).run r = (.ok (.ok sig), r') ∧ At (p + 4) r') ∨
      ∃ e r', (Run.attempt readU32 : Parse Cursor _).run ⟨data, p⟩ =
          (.ok (.error e), ⟨data, data.length⟩) ∧
        (Run.attempt readU32 : Parse ρ _).run r = (.ok (.error e), r') ∧
          At (max p data.length) r' := by
  have hlen : (⟨data, p⟩ : Cursor).rest.length = data.length - p := Cursor.length_rest _
  by_cases hle : 4 ≤ data.length - p
  · obtain ⟨r', hrun, hr'⟩ := h.readExact 4 p r hr hle
    have hcursor : (readExact 4 : Parse Cursor _).run ⟨data, p⟩ =
        (.ok ((data.drop p).take 4), ⟨data, p + 4⟩) := if_pos (by rwa [hlen])
    refine .inl ⟨UInt32.ofNat (ofLE ((data.drop p).take 4)), r', by omega, ?_, ?_, hr'⟩
    · exact Run.attempt_of_ok (by rw [readU32, Run.bind_of_ok hcursor]; rfl)
    · exact Run.attempt_of_ok (by rw [readU32, Run.bind_of_ok hrun]; rfl)
  · obtain ⟨r', hrun, hr'⟩ := h.readExact_eof 4 p r hr (not_le.mp hle)
    have hcursor : (readExact 4 : Parse Cursor _).run ⟨data, p⟩ =
        (.err (.io .unexpectedEof), ⟨data, data.length⟩) := if_neg (by rwa [hlen])
    refine .inr ⟨.io .unexpectedEof, r', ?_, ?_, hr'⟩
    · exact Run.attempt_of_err (by rw [readU32, Run.bind_of_err hcursor])
    · exact Run.attempt_of_err (by rw [readU32, Run.bind_of_err hrun])

theorem follows_readU8 :
    Follows data At anywhere (behind data 1) (readU8 : Parse Cursor _) readU8 :=
  (follows_readExact h Nat.one_pos).bind fun _ => .pure _

theorem follows_readU16 :
    Follows data At anywhere (behind data 2) (readU16 : Parse Cursor _) readU16 :=
  (follows_readExact h Nat.two_pos).bind fun _ => .pure _

theorem follows_readU32 :
    Follows data At anywhere (behind data 4) (readU32 : Parse Cursor _) readU32 :=
  (follows_readExact h (Nat.succ_pos 3)).bind fun _ => .pure _

theorem follows_readU64 :
    Follows data At anywhere (behind data 8) (readU64 : Parse Cursor _) readU64 :=
  (follows_readExact h (Nat.succ_pos 7)).bind fun _ => .pure _

/-- A read in portions follows, also one of no bytes. -/
theorem follows_readExactCapped (n : Nat) :
    Follows data At anywhere anywhere (readExactCapped n : Parse Cursor _) (readExactCapped n) := by
  have hread : Follows data At anywhere anywhere (readUpTo n : Parse Cursor _) (readUpTo n) := by
    intro p r _ hr
    obtain ⟨r', hrun, hr'⟩ := h.readUpTo n p r hr
    rw [hrun]
    exact .ok ⟨⟨rfl, hr'⟩, trivial⟩
  exact hread.bind fun _ => .ite (.throw _) (.pure _)

/-- The fuel of a loop is the length of the data over either reader. -/
theorem follows_passBound :
    Follows data At anywhere anywhere (passBound : Parse Cursor _) passBound := by
  intro p r _ hr
  obtain ⟨r', hrun, hr'⟩ := h.passBound p r hr
  rw [hrun]
  exact .ok ⟨⟨rfl, hr'⟩, trivial⟩

/-- A seek from the start follows up to the limit. -/
theorem follows_seekStart {p : Nat} (hp : p ≤ limit) :
    Follows data At anywhere (· = p) (seekStart p : Parse Cursor _) (seekStart p) := by
  intro q r _ hr
  obtain ⟨r', hrun, hr'⟩ := h.seekStart p q r hp hr
  rw [hrun]
  exact .ok ⟨⟨rfl, hr'⟩, rfl⟩

/-- What was read is un-read. -/
theorem follows_unread (hlimit : data.length ≤ limit) :
    Follows data At (behind data 4) anywhere (seekCurrent (-4) : Parse Cursor _)
      (seekCurrent (-4)) := by
  intro p r hp hr
  obtain ⟨q, rfl⟩ : ∃ q, p = q + 4 := ⟨p - 4, by omega⟩
  have hq : ((q + 4 : Nat) : Int) + -4 = q := by omega
  obtain ⟨r', hrun, hr'⟩ := h.seekCurrent (-4) q (q + 4) r hq (by omega) hr
  have hcursor : (seekCurrent (-4) : Parse Cursor _).run ⟨data, q + 4⟩ = (.ok (), ⟨data, q⟩) := by
    have hrun : (Unegg.seekCurrent (-4)).run ⟨data, q + 4⟩ = (.ok (), ⟨data, q⟩) := by
      simp only [Unegg.seekCurrent, hq]
      simp
    exact hrun
  rw [hcursor, hrun]
  exact .ok ⟨⟨rfl, hr'⟩, trivial⟩

/-- A skip by a declared size stays within the limit, for sizes have 32 bits. -/
theorem follows_skip (hlimit : data.length + 2 ^ 32 ≤ limit) {n k : Nat} (hn : n < 2 ^ 32) :
    Follows data At (behind data k) anywhere (skip n : Parse Cursor _) (skip n) := by
  intro p r hp hr
  obtain ⟨r', hrun, hr'⟩ := h.seekCurrent n (p + n) p r (by push_cast; rfl) (by omega) hr
  have hcursor : (skip n : Parse Cursor _).run ⟨data, p⟩ = (.ok (), ⟨data, p + n⟩) := by
    have hrun : (Unegg.seekCurrent n).run ⟨data, p⟩ = (.ok (), ⟨data, p + n⟩) := by
      simp only [Unegg.seekCurrent]
      rw [if_neg (by omega)]
      simp
      omega
    exact hrun
  rw [hcursor, skip, hrun]
  exact .ok ⟨⟨rfl, hr'⟩, trivial⟩

/-! ## the parser -/

/-- An extra field has a first byte, so its reader has moved. -/
theorem follows_readExtraField : Follows data At anywhere (behind data 1)
    (readExtraField : Parse Cursor _) readExtraField := by
  have hweak : ∀ p, behind data 4 p → behind data 1 p := fun p hp => ⟨by omega, hp.2⟩
  have hweak' : ∀ p, behind data 2 p → behind data 1 p := fun p hp => ⟨by omega, hp.2⟩
  refine (follows_readU8 h).bind fun flags => .ite ?_ ?_
  · exact (follows_readU32 h).from_anywhere.bind fun size =>
      (Follows.pure _).weaken hweak fun _ => id
  · exact (follows_readU16 h).from_anywhere.bind fun size =>
      (Follows.pure _).weaken hweak' fun _ => id

/-- The trial of one payload length follows, and returns to where it began. -/
theorem follows_landsOnEndMarker {start len : Nat} (hstart : start + len ≤ limit) :
    Follows data At anywhere (· = start) (landsOnEndMarker start len : Parse Cursor _)
      (landsOnEndMarker start len) := by
  have hback : start ≤ limit := (Nat.le_add_right start len).trans hstart
  refine (follows_seekStart h hstart).bind fun _ => ?_
  rintro p r rfl hr
  rcases attempt_readU32 h hr with ⟨sig, r', -, hcursor, hrun, hr'⟩ | ⟨e, r', hcursor, hrun, hr'⟩
  · rw [Run.bind_of_ok hcursor, Run.bind_of_ok hrun]
    exact ((follows_seekStart h hback).bind fun _ => .pure _) _ _ trivial hr'
  · rw [Run.bind_of_ok hcursor, Run.bind_of_ok hrun]
    obtain ⟨r₁, hseek, hr₁⟩ := h.seekStart start _ r' hback hr'
    have hcursor : (seekStart start : Parse Cursor _).run ⟨data, data.length⟩ =
        (.ok (), ⟨data, start⟩) := rfl
    rw [Run.bind_of_ok hcursor, Run.bind_of_ok hseek]
    exact .ok ⟨⟨rfl, hr₁⟩, rfl⟩

/-- The trial of all payload lengths follows, and returns to where it began. -/
theorem follows_findLanding {start : Nat} {lens : List Nat}
    (hlens : ∀ len ∈ lens, start + len ≤ limit) :
    Follows data At (· = start) (· = start) (findLanding start lens : Parse Cursor _)
      (findLanding start lens) := by
  induction lens with
  | nil => exact .pure _
  | cons len lens ih =>
      rw [List.forall_mem_cons] at hlens
      exact (follows_landsOnEndMarker h hlens.1).from_anywhere.bind fun _ =>
        .ite (.pure _) (ih hlens.2)

omit h in
/-- No payload of an encryption sub-header has more than 28 bytes. -/
theorem payloadLengths_le (method : EncryptionMethod) :
    ∀ len ∈ method.payloadLengths, len ≤ 28 := by
  cases method <;> simp [EncryptionMethod.payloadLengths]

section Parser

variable (hlimit : data.length + 2 ^ 32 ≤ limit)
include hlimit

/-- An unknown field is skipped alike. -/
theorem follows_skipField :
    Follows data At anywhere anywhere (skipField : Parse Cursor _) skipField :=
  (follows_readExtraField h).bind fun field =>
    follows_skip h hlimit (UInt32.toNat_lt field.2)

/-- The payload of the encryption sub-header is found alike. -/
theorem follows_readEncryptPayload (method : EncryptionMethod) (declared k : Nat) :
    Follows data At (behind data k) anywhere (readEncryptPayload method declared : Parse Cursor _)
      (readEncryptPayload method declared) := by
  intro p r hp hr
  obtain ⟨r', hpos, hr'⟩ := h.streamPosition p r hr
  have hcursor : (streamPosition : Parse Cursor _).run ⟨data, p⟩ = (.ok p, ⟨data, p⟩) := rfl
  have hle : ∀ len ∈ method.payloadLengths, p + len ≤ limit := fun len hlen => by
    have := payloadLengths_le method len hlen
    omega
  rw [readEncryptPayload, readEncryptPayload, Run.bind_of_ok hcursor, Run.bind_of_ok hpos]
  refine Follows.bind (I := (· = p)) (J := (· = p)) ?_ (fun trusted => ?_) p r' rfl hr'
  · by_cases hmem : method.payloadLengths.contains declared = true
    · rw [if_pos hmem, if_pos hmem]
      exact (follows_landsOnEndMarker h (hle declared (by simpa using hmem))).from_anywhere
    · rw [if_neg hmem, if_neg hmem]
      exact .pure _
  · refine .ite (follows_readExactCapped h declared).from_anywhere ?_
    refine (follows_findLanding h hle).bind fun len => ?_
    cases len with
    | some len => exact (follows_readExactCapped h len).from_anywhere
    | none => exact (follows_readExactCapped h declared).from_anywhere

/-! ### blocks -/

/-- A block header is read alike. -/
theorem follows_parseBlock :
    Follows data At anywhere anywhere (parseBlock : Parse Cursor _) parseBlock := by
  refine (follows_readU8 h).to_anywhere.bind fun methodByte =>
    (follows_readU8 h).to_anywhere.bind fun _ =>
    (follows_readU32 h).to_anywhere.bind fun uncompressedSize =>
    (follows_readU32 h).to_anywhere.bind fun compressedSize =>
    (follows_readU32 h).to_anywhere.bind fun crc32 =>
    (follows_readU32 h).bind fun endSig => .ite (.throw _) ?_
  have hpos : Follows data At (behind data 4) (behind data 4) (streamPosition : Parse Cursor _)
      streamPosition := by
    intro p r hp hr
    obtain ⟨r', hrun, hr'⟩ := h.streamPosition p r hr
    rw [hrun]
    exact .ok ⟨⟨rfl, hr'⟩, hp⟩
  exact hpos.bind fun dataPos =>
    (follows_skip h hlimit (UInt32.toNat_lt compressedSize)).bind fun _ => .pure _

/-- A pass of the block loop follows, the step back over the signature included. -/
theorem follows_blockStep (blocks : List EggBlock) :
    Follows data At anywhere anywhere (blockStep blocks : Parse Cursor _) (blockStep blocks) :=
  (follows_readU32 h).bind fun _ =>
    .ite ((follows_parseBlock h hlimit).from_anywhere.bind fun _ => .pure _)
      (.ite ((follows_unread h ((Nat.le_add_right _ _).trans hlimit)).bind fun _ => .pure _)
        (.throw _))

/-- The blocks of an entry are read alike. -/
theorem follows_parseBlocks :
    Follows data At anywhere anywhere (parseBlocks : Parse Cursor _) parseBlocks :=
  (follows_passBound h).bind fun bound => .loop (follows_blockStep h hlimit) bound []

/-! ### file entries -/

section Entries

variable {pages : CodePages}

omit h hlimit [Reader ρ] in
/-- A subtraction touches no reader. -/
theorem follows_checkedSub (n k : Nat) :
    Follows data At anywhere anywhere (checkedSub n k : Parse Cursor _) (checkedSub n k) :=
  .ite (.throw _) (.pure _)

omit hlimit in
/-- A name is read alike, whichever of its extra fields are there. -/
theorem follows_parseFilename (f : FileHeaders) :
    Follows data At anywhere anywhere (parseFilename pages f : Parse Cursor _)
      (parseFilename pages f) := by
  refine (follows_readExtraField h).to_anywhere.bind fun field => .bind (J := anywhere) ?_
    fun area => .bind (J := anywhere) ?_ fun parent =>
      (follows_readExactCapped h parent.2).bind fun _ => .pure _
  · exact .ite ((follows_readU16 h).to_anywhere.bind fun _ =>
      (follows_checkedSub _ 2).bind fun _ => .pure _) (.pure _)
  · exact .ite ((follows_readU32 h).to_anywhere.bind fun _ =>
      (follows_checkedSub _ 4).bind fun _ => .pure _) (.pure _)

theorem follows_parseWindowsFileInfo (f : FileHeaders) :
    Follows data At anywhere anywhere (parseWindowsFileInfo f : Parse Cursor _)
      (parseWindowsFileInfo f) := by
  refine (follows_readExtraField h).to_anywhere.bind fun field => .ite (.throw _) ?_
  have hsize := UInt32.toNat_lt field.2
  exact (follows_readU64 h).to_anywhere.bind fun _ => (follows_readU8 h).bind fun _ =>
    (follows_skip h hlimit (by omega)).bind fun _ => .pure _

theorem follows_parsePosixFileInfo (f : FileHeaders) :
    Follows data At anywhere anywhere (parsePosixFileInfo f : Parse Cursor _)
      (parsePosixFileInfo f) := by
  refine (follows_readExtraField h).to_anywhere.bind fun field => .ite (.throw _) ?_
  have hsize := UInt32.toNat_lt field.2
  exact (follows_readU32 h).to_anywhere.bind fun _ => (follows_readU32 h).to_anywhere.bind fun _ =>
    (follows_readU32 h).to_anywhere.bind fun _ => (follows_readU64 h).bind fun _ =>
      (follows_skip h hlimit (by omega)).bind fun _ => .pure _

/-- The encryption sub-header is read alike. -/
theorem follows_parseEncryptInfo (f : FileHeaders) :
    Follows data At anywhere anywhere (parseEncryptInfo f : Parse Cursor _)
      (parseEncryptInfo f) := by
  refine (follows_readExtraField h).to_anywhere.bind fun field => .ite (.throw _) ?_
  refine (follows_readU8 h).bind fun methodByte => ?_
  split
  · exact .throw _
  · exact (follows_readEncryptPayload h hlimit _ _ 1).bind fun _ => .pure _

/-- A pass over the sub-headers follows. -/
theorem follows_subHeaderStep (f : FileHeaders) :
    Follows data At anywhere anywhere (subHeaderStep pages f : Parse Cursor _)
      (subHeaderStep pages f) :=
  (follows_readU32 h).to_anywhere.bind fun _ =>
    .ite ((follows_parseFilename h f).bind fun _ => .pure _) <|
    .ite ((follows_skipField h hlimit).bind fun _ => .pure _) <|
    .ite ((follows_parseWindowsFileInfo h hlimit f).bind fun _ => .pure _) <|
    .ite ((follows_parsePosixFileInfo h hlimit f).bind fun _ => .pure _) <|
    .ite ((follows_parseEncryptInfo h hlimit f).bind fun _ => .pure _) <|
    .ite (.pure _) (.throw _)

/-- A file entry is read alike, its sub-headers and its blocks. -/
theorem follows_parseFileEntry (isEncrypted : Bool) :
    Follows data At anywhere anywhere (parseFileEntry pages isEncrypted : Parse Cursor _)
      (parseFileEntry pages isEncrypted) := by
  have hheaders : Follows data At anywhere anywhere
      (parseSubHeaders pages isEncrypted : Parse Cursor _) (parseSubHeaders pages isEncrypted) :=
    (follows_passBound h).bind fun bound => .loop (follows_subHeaderStep h hlimit) bound _
  exact (follows_readU32 h).to_anywhere.bind fun _ => (follows_readU64 h).to_anywhere.bind fun _ =>
    hheaders.bind fun _ => (follows_parseBlocks h hlimit).bind fun _ => .pure _

/-! ### the archive -/

/-- The split field of the prefix is read alike. -/
theorem follows_parseSplitInfo (p : Prefix) :
    Follows data At anywhere anywhere (parseSplitInfo p : Parse Cursor _) (parseSplitInfo p) := by
  refine (follows_readExtraField h).to_anywhere.bind fun field => ?_
  have hsize := UInt32.toNat_lt field.2
  exact (follows_readU32 h).to_anywhere.bind fun _ => (follows_readU32 h).bind fun _ =>
    (follows_skip h hlimit (by omega)).bind fun _ => .pure _

/-- A pass over the prefix follows. -/
theorem follows_prefixStep (p : Prefix) :
    Follows data At anywhere anywhere (prefixStep p : Parse Cursor _) (prefixStep p) :=
  (follows_readU32 h).to_anywhere.bind fun _ =>
    .ite ((follows_parseSplitInfo h hlimit p).bind fun _ => .pure _) <|
    .ite ((follows_skipField h hlimit).bind fun _ => .pure _) <|
    .ite ((follows_skipField h hlimit).bind fun _ => .pure _) <|
    .ite ((follows_skipField h hlimit).bind fun _ => .pure _) <|
    .ite (.pure _) (.throw _)

/-- At the end of the data the reader stands where the cursor does. -/
theorem follows_peekRecord (rs : Records) :
    Follows data At (behind data 4) anywhere (peekRecord rs : Parse Cursor _) (peekRecord rs) := by
  intro p r hp hr
  rcases attempt_readU32 h hr with ⟨sig, r', hle, hcursor, hrun, hr'⟩ | ⟨e, r', hcursor, hrun, hr'⟩
  · rw [peekRecord, peekRecord, Run.bind_of_ok hcursor, Run.bind_of_ok hrun]
    exact ((follows_unread h ((Nat.le_add_right _ _).trans hlimit)).bind fun _ =>
      .ite (.pure _) (.pure _)) (p + 4) r' ⟨Nat.le_add_left _ _, hle⟩ hr'
  · rw [peekRecord, peekRecord, Run.bind_of_ok hcursor, Run.bind_of_ok hrun]
    rw [Nat.max_eq_right hp.2] at hr'
    exact .ok ⟨⟨rfl, hr'⟩, trivial⟩

/-- A pass of the record loop follows. -/
theorem follows_recordStep (rs : Records) :
    Follows data At anywhere anywhere (recordStep pages rs : Parse Cursor _)
      (recordStep pages rs) :=
  (follows_readU32 h).bind fun _ =>
    .ite ((follows_parseFileEntry h hlimit _).from_anywhere.bind fun _ => .pure _) <|
    .ite ((follows_skipField h hlimit).from_anywhere.bind fun _ => .pure _) <|
    .ite ((follows_skipField h hlimit).from_anywhere.bind fun _ => .pure _) <|
    .ite (follows_peekRecord h hlimit rs) (.throw _)

/-- **Parsing on a reader** that behaves as a cursor is parsing on the cursor. -/
theorem follows_openArchive (pages : CodePages) :
    Follows data At anywhere anywhere (openArchive pages : Parse Cursor _) (openArchive pages) :=
  (follows_readU32 h).to_anywhere.bind fun _ => .ite (.throw _) <|
    (follows_readU16 h).to_anywhere.bind fun _ => (follows_readU32 h).to_anywhere.bind fun _ =>
    (follows_readU32 h).to_anywhere.bind fun _ => (follows_passBound h).bind fun bound =>
    (Follows.loop (follows_prefixStep h hlimit) bound _).bind fun _ =>
    (Follows.loop (follows_recordStep h hlimit) bound _).bind fun _ => .pure _

end Entries

end Parser

end Emulates

end Reader

end Unegg
