import Unegg.Archive

/-!
# Unegg.Archive.Ahead

The parser looks ahead only.

What a parser does, and the values it gives, depend on the position and the
bytes from there on, not on the bytes before it: two readers at the same place
with the same bytes ahead are parsed alike (`alike_parseBlocks`,
`alike_records`).  The signatures that are un-read and the probes for an End
Marker go no further back than to where the pass began.
-/

namespace Unegg

open Prog Bytes Run

/-- The same place in streams of one length, with the same bytes ahead. -/
structure SameAhead (c c' : Cursor) : Prop where
  pos : c.pos = c'.pos
  rest : c.rest = c'.rest
  length : c.data.length = c'.data.length

namespace SameAhead

variable {c c' : Cursor}

/-- What lies ahead stays the same behind a read. -/
theorem advance (h : SameAhead c c') (n : Nat) : SameAhead (c.advance n) (c'.advance n) where
  pos := by simp [h.pos]
  rest := by rw [Cursor.rest_advance, Cursor.rest_advance, h.rest]
  length := h.length

/-- At the end of the data. -/
theorem atEnd (h : SameAhead c c') :
    SameAhead { c with pos := c.data.length } { c' with pos := c'.data.length } where
  pos := h.length
  rest := by simp [Cursor.rest]
  length := h.length

end SameAhead

/-- Two runs of a parser that end alike, where the readers agree ahead. -/
def AlikeAhead {α : Type} (m : Parser α) (c c' : Cursor) : Prop :=
  Alike (fun _ => SameAhead) SameAhead (m.run c) (m.run c')

section Ahead

variable {c c' : Cursor} {α β : Type}

/-! ## fields -/

/-- A parser is alike ahead if its parts are. -/
theorem AlikeAhead.bind {m : Parser α} {f : α → Parser β} (hm : AlikeAhead m c c')
    (hf : ∀ a c c', SameAhead c c' → AlikeAhead (f a) c c') : AlikeAhead (m >>= f) c c' :=
  Alike.bind hm fun a c₁ c₁' h => hf a c₁ c₁' h

theorem alike_pure (a : α) (h : SameAhead c c') : AlikeAhead (pure a) c c' := .ok h

theorem alike_throw (e : EggError) (h : SameAhead c c') :
    AlikeAhead (Run.throw e : Parser α) c c' := .err h

/-- A test is alike ahead if both of its branches are. -/
theorem AlikeAhead.ite {p : Prop} [Decidable p] {m m' : Parser α} (h : AlikeAhead m c c')
    (h' : AlikeAhead m' c c') : AlikeAhead (if p then m else m') c c' := by
  split
  · exact h
  · exact h'

/-- A read sees only what lies ahead. -/
theorem alike_readExact (n : Nat) (h : SameAhead c c') : AlikeAhead (readExact n) c c' := by
  simp only [AlikeAhead, readExact, h.rest]
  split
  · exact .ok (h.advance n)
  · exact .err h.atEnd

theorem alike_readU8 (h : SameAhead c c') : AlikeAhead readU8 c c' :=
  .bind (alike_readExact 1 h) fun _ _ _ => alike_pure _

theorem alike_readU16 (h : SameAhead c c') : AlikeAhead readU16 c c' :=
  .bind (alike_readExact 2 h) fun _ _ _ => alike_pure _

theorem alike_readU32 (h : SameAhead c c') : AlikeAhead readU32 c c' :=
  .bind (alike_readExact 4 h) fun _ _ _ => alike_pure _

theorem alike_readU64 (h : SameAhead c c') : AlikeAhead readU64 c c' :=
  .bind (alike_readExact 8 h) fun _ _ _ => alike_pure _

/-- A skip may leave both cursors behind their ends, at the same place. -/
theorem alike_skip (n : Nat) (h : SameAhead c c') : AlikeAhead (skip n) c c' := by
  rw [AlikeAhead, skip_run, skip_run]
  exact .ok (h.advance n)

/-- The positions are counted alike. -/
theorem alike_streamPosition (h : SameAhead c c') : AlikeAhead streamPosition c c' := by
  simp only [AlikeAhead, streamPosition, h.pos]
  exact .ok h

/-- The bound of a loop is the length of the data, which is the same. -/
theorem alike_passBound (h : SameAhead c c') : AlikeAhead passBound c c' := by
  simp only [AlikeAhead, passBound, h.length]
  exact .ok h

/-- A read in portions sees only what lies ahead. -/
theorem alike_readExactCapped (n : Nat) (h : SameAhead c c') :
    AlikeAhead (readExactCapped n) c c' := by
  refine .bind ?_ fun buf _ _ h => .ite (alike_throw _ h) (alike_pure _ h)
  simp only [AlikeAhead, readUpTo, h.rest]
  exact .ok (h.advance _)

theorem alike_readExtraField (h : SameAhead c c') : AlikeAhead readExtraField c c' := by
  refine .bind (alike_readU8 h) fun flags _ _ h => .ite ?_ ?_
  · exact .bind (alike_readU32 h) fun _ _ _ => alike_pure _
  · exact .bind (alike_readU16 h) fun _ _ _ => alike_pure _

theorem alike_skipField (h : SameAhead c c') : AlikeAhead skipField c c' :=
  .bind (alike_readExtraField h) fun _ _ _ h => alike_skip _ h

/-- The search for the payload's length looks ahead only. -/
theorem alike_readEncryptPayload (method : EncryptionMethod) (declared : Nat)
    (h : SameAhead c c') : AlikeAhead (readEncryptPayload method declared) c c' := by
  rw [AlikeAhead, readEncryptPayload_run, readEncryptPayload_run, h.rest]
  exact alike_readExactCapped _ h

/-! ## loops -/

/-- The loops of the parser, which run under a bound that the stream sets. -/
theorem alike_loop {body : β → Parser (Prog.Flow β α)}
    (hbody : ∀ b c c', SameAhead c c' → AlikeAhead (body b) c c') (n : Nat) (b : β)
    (h : SameAhead c c') : AlikeAhead (Run.loop body n b) c c' :=
  Alike.loop (fun b c c' h => hbody b c c' h) n b h

/-- A signature that is looked at and un-read. -/
theorem alike_unread {f : UInt32 → Parser α}
    (hf : ∀ sig c c', SameAhead c c' → AlikeAhead (f sig) (c.advance 4) (c'.advance 4))
    (h : SameAhead c c') : AlikeAhead (readU32 >>= f) c c' := by
  rw [AlikeAhead, bind_run, bind_run, readU32_run, readU32_run, h.rest]
  by_cases hlen : 4 ≤ c'.rest.length
  · simp only [if_pos hlen]
    exact hf _ _ _ h
  · simp only [if_neg hlen]
    exact .err h.atEnd

/-- A block header is read from what lies ahead. -/
theorem alike_parseBlock (h : SameAhead c c') : AlikeAhead parseBlock c c' := by
  refine .bind (alike_readU8 h) fun _ _ _ h => .bind (alike_readU8 h) fun _ _ _ h => ?_
  refine .bind (alike_readU32 h) fun _ _ _ h => .bind (alike_readU32 h) fun _ _ _ h => ?_
  refine .bind (alike_readU32 h) fun _ _ _ h => .bind (alike_readU32 h) fun _ _ _ h => ?_
  refine .ite (alike_throw _ h) (.bind (alike_streamPosition h) fun _ _ _ h => ?_)
  exact .bind (alike_skip _ h) fun _ _ _ h => alike_pure _ h

/-- The step back over a signature ends where the pass began. -/
theorem alike_blockStep (blocks : List EggBlock) (h : SameAhead c c') :
    AlikeAhead (blockStep blocks) c c' := by
  refine alike_unread (fun sig c c' h => .ite ?_ (.ite ?_ ?_)) h
  · exact .bind (alike_parseBlock (h.advance 4)) fun _ _ _ h => alike_pure _ h
  · rw [AlikeAhead, bind_of_ok (seekCurrent_back c), bind_of_ok (seekCurrent_back c')]
    exact .ok h
  · exact alike_throw _ (h.advance 4)

/-- The block loop reads the blocks ahead alike. -/
theorem alike_parseBlocks (h : SameAhead c c') : AlikeAhead parseBlocks c c' :=
  .bind (alike_passBound h) fun n _ _ h => alike_loop (fun b _ _ h => alike_blockStep b h) n [] h

/-! ## entries -/

variable (pages : CodePages)

theorem alike_checkedSub (n k : Nat) (h : SameAhead c c') : AlikeAhead (checkedSub n k) c c' :=
  .ite (alike_throw _ h) (alike_pure _ h)

theorem alike_parseFilename (hd : FileHeaders) (h : SameAhead c c') :
    AlikeAhead (parseFilename pages hd) c c' := by
  refine .bind (alike_readExtraField h) fun p _ _ h => .bind ?_ fun p _ _ h => .bind ?_
    fun p _ _ h => .bind (alike_readExactCapped _ h) fun _ _ _ h => alike_pure _ h
  · refine .ite (.bind (alike_readU16 h) fun _ _ _ h => ?_) (alike_pure _ h)
    exact .bind (alike_checkedSub _ _ h) fun _ _ _ h => alike_pure _ h
  · refine .ite (.bind (alike_readU32 h) fun _ _ _ h => ?_) (alike_pure _ h)
    exact .bind (alike_checkedSub _ _ h) fun _ _ _ h => alike_pure _ h

theorem alike_parseWindowsFileInfo (hd : FileHeaders) (h : SameAhead c c') :
    AlikeAhead (parseWindowsFileInfo hd) c c' := by
  refine .bind (alike_readExtraField h) fun p _ _ h => .ite (alike_throw _ h) ?_
  refine .bind (alike_readU64 h) fun _ _ _ h => .bind (alike_readU8 h) fun _ _ _ h => ?_
  exact .bind (alike_skip _ h) fun _ _ _ h => alike_pure _ h

theorem alike_parsePosixFileInfo (hd : FileHeaders) (h : SameAhead c c') :
    AlikeAhead (parsePosixFileInfo hd) c c' := by
  refine .bind (alike_readExtraField h) fun p _ _ h => .ite (alike_throw _ h) ?_
  refine .bind (alike_readU32 h) fun _ _ _ h => .bind (alike_readU32 h) fun _ _ _ h => ?_
  refine .bind (alike_readU32 h) fun _ _ _ h => .bind (alike_readU64 h) fun _ _ _ h => ?_
  exact .bind (alike_skip _ h) fun _ _ _ h => alike_pure _ h

theorem alike_parseEncryptInfo (hd : FileHeaders) (h : SameAhead c c') :
    AlikeAhead (parseEncryptInfo hd) c c' := by
  refine .bind (alike_readExtraField h) fun p _ _ h => .ite (alike_throw _ h) ?_
  refine .bind (alike_readU8 h) fun b _ _ h => ?_
  split
  · exact alike_throw _ h
  · exact .bind (alike_readEncryptPayload _ _ h) fun _ _ _ h => alike_pure _ h

/-- A sub-header is read from what lies ahead. -/
theorem alike_subHeaderStep (hd : FileHeaders) (h : SameAhead c c') :
    AlikeAhead (subHeaderStep pages hd) c c' := by
  refine .bind (alike_readU32 h) fun sig _ _ h => .ite ?_ (.ite ?_ (.ite ?_ (.ite ?_ (.ite ?_
    (.ite (alike_pure _ h) (alike_throw _ h))))))
  · exact .bind (alike_parseFilename pages hd h) fun _ _ _ h => alike_pure _ h
  · exact .bind (alike_skipField h) fun _ _ _ h => alike_pure _ h
  · exact .bind (alike_parseWindowsFileInfo hd h) fun _ _ _ h => alike_pure _ h
  · exact .bind (alike_parsePosixFileInfo hd h) fun _ _ _ h => alike_pure _ h
  · exact .bind (alike_parseEncryptInfo hd h) fun _ _ _ h => alike_pure _ h

/-- An entry is read the same, whatever came before it. -/
theorem alike_parseFileEntry (isEncrypted : Bool) (h : SameAhead c c') :
    AlikeAhead (parseFileEntry pages isEncrypted) c c' := by
  refine .bind (alike_readU32 h) fun _ _ _ h => .bind (alike_readU64 h) fun _ _ _ h => ?_
  refine .bind ?_ fun hd _ _ h => .bind (alike_parseBlocks h) fun _ _ _ h => alike_pure _ h
  exact .bind (alike_passBound h) fun n _ _ h =>
    alike_loop (fun hd _ _ h => alike_subHeaderStep pages hd h) n _ h

/-- The signature of the next record is found alike. -/
theorem alike_peekRecord (rs : Records) (h : SameAhead c c') :
    AlikeAhead (peekRecord rs) c c' := by
  rw [AlikeAhead, peekRecord]
  by_cases hlen : 4 ≤ c'.rest.length
  · have hread := readU32_run c
    have hread' := readU32_run c'
    rw [h.rest, if_pos hlen] at hread
    rw [if_pos hlen] at hread'
    rw [bind_of_ok (attempt_of_ok hread), bind_of_ok (attempt_of_ok hread')]
    simp only
    rw [bind_of_ok (seekCurrent_back c), bind_of_ok (seekCurrent_back c')]
    split
    · exact .ok h
    · exact .ok h
  · have hread := readU32_run c
    have hread' := readU32_run c'
    rw [h.rest, if_neg hlen] at hread
    rw [if_neg hlen] at hread'
    rw [bind_of_ok (attempt_of_err hread), bind_of_ok (attempt_of_err hread')]
    exact .ok h.atEnd

/-- A pass of the record loop is alike on both. -/
theorem alike_recordStep (rs : Records) (h : SameAhead c c') :
    AlikeAhead (recordStep pages rs) c c' := by
  refine .bind (alike_readU32 h) fun sig _ _ h => .ite ?_ (.ite ?_ (.ite ?_ (.ite
    (alike_peekRecord rs h) (alike_throw _ h))))
  · exact .bind (alike_parseFileEntry pages _ h) fun _ _ _ h => alike_pure _ h
  · exact .bind (alike_skipField h) fun _ _ _ h => alike_pure _ h
  · exact .bind (alike_skipField h) fun _ _ _ h => alike_pure _ h

/-- The records ahead are read alike, wherever the reading of them began. -/
theorem alike_records (n : Nat) (rs : Records) (h : SameAhead c c') :
    AlikeAhead (Run.loop (recordStep pages) n rs) c c' :=
  alike_loop (fun rs _ _ h => alike_recordStep pages rs h) n rs h

end Ahead

end Unegg
