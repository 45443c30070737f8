import Unegg.Coder.Settles
import Unegg.Decompress.Deflate

/-!
# Unegg.Decompress.Settles

Every decompressor comes to an end.

Store and the copy of a solid stream are ended by their input, bzip2 by the
writer, which each of its passes takes something from, and deflate by the two
together.  LZMA and AZO are the libraries' own loops, so that they end is assumed
of them (`Crates.Settle`), as is that the inflater makes progress.
-/

namespace Unegg

open Prog Crc32 Coder

/-- The libraries come to an end whatever they are given. -/
structure Crates.Settle (crates : Crates) : Prop where
  inflate : crates.inflate.Progresses
  lzma : ∀ stream limit src room,
    (crates.lzma stream limit).Settles (fun _ _ _ => True) src room
  azo : ∀ size limit encrypted src room,
    (crates.azo size limit encrypted).Settles (fun _ _ _ => True) src room

variable {crates : Crates} {src room : Nat}

/-! ## the pieces -/

namespace Decode

/-- A read takes its bytes off the input. -/
theorem settles_readExact {Q : List UInt8 → Nat → Nat → Prop} {n : Nat}
    (hQ : ∀ bs, bs.length = n → Q bs (src - n) room) : (readExact n).Settles Q src room := by
  intro bs hbs
  dsimp only
  split
  · trivial
  · exact hQ bs (by omega)

/-- A read of what there is takes its bytes off the input, as far as they go. -/
theorem settles_readUpTo {Q : List UInt8 → Nat → Nat → Prop} {n : Nat}
    (hQ : ∀ bs, Q bs (src - n) room) : (readUpTo n).Settles Q src room := fun bs _ => hQ bs

/-- Decrypting takes nothing. -/
theorem settles_decrypt {Q : List UInt8 → Nat → Nat → Prop} {bs : List UInt8}
    (hQ : ∀ bs', bs'.length = bs.length → Q bs' src room) : (decrypt bs).Settles Q src room := hQ

/-- A write takes its bytes off the room. -/
theorem settles_writeAll {Q : Unit → Nat → Nat → Prop} {bs : List UInt8}
    (hQ : ∀ room', bs.length + room' ≤ room → Q () src room') :
    (writeAll bs).Settles Q src room := by
  intro n r room' hroom _ hwhole
  cases r with
  | none => exact hQ room' (hwhole rfl ▸ hroom)
  | some e => trivial

/-- A write of output that may be empty takes its bytes off the room. -/
theorem settles_writeSome {Q : Unit → Nat → Nat → Prop} {bs : List UInt8}
    (hQ : ∀ room', bs.length + room' ≤ room → Q () src room') :
    (writeSome bs).Settles Q src room := by
  rw [writeSome]
  split
  · exact settles_writeAll hQ
  · next hnil =>
      rw [not_not] at hnil
      subst hnil
      exact hQ room (by simp)

end Decode

/-! ## ended by the input -/

/-- Stored data settles at the end of the input. -/
theorem settles_extractStore (size : Nat) :
    (extractStore size).Settles (fun _ _ _ => True) src room := by
  refine .loop (I := fun _ _ _ => True) (fun p _ _ => p.1) ?_ trivial (Nat.lt_succ_self _)
  rintro ⟨remaining, hasher⟩ s r -
  rw [storeStep]
  split
  · trivial
  · next hpos =>
      refine .bind (Decode.settles_readExact fun buf _ => ?_)
      refine .bind (Decode.settles_decrypt fun buf' _ => ?_)
      exact .bind (Decode.settles_writeAll fun _ _ => ⟨trivial, by dsimp only; omega⟩)

/-- A copy settles, for its fuel is the length of the stream. -/
theorem settles_ioCopy {n : Nat} (h : src < n) :
    (ioCopy n).Settles (fun _ _ _ => True) src room := by
  induction n generalizing src room with
  | zero => omega
  | succ n ih =>
      intro bs hbs
      dsimp only
      split
      · trivial
      · next hnil =>
          have hpos := List.length_pos_of_ne_nil hnil
          intro k r room' _ _ _
          cases r with
          | none => exact ih (by omega)
          | some e => trivial

/-- The LZMA decoder settles as it is said to. -/
theorem settles_extractLzma (hcrates : crates.Settle) (compressedSize maxOutput : Nat) :
    (extractLzma crates compressedSize maxOutput).Settles (fun _ _ _ => True) src room := by
  rw [extractLzma]
  split
  · trivial
  · refine .bind (Decode.settles_readExact fun header _ => ?_)
    refine .bind (Decode.settles_decrypt fun header _ => .bind ?_)
    refine Decode.settles_readUpTo fun data => ?_
    split
    · trivial
    · refine .bind (Decode.settles_decrypt fun data _ => .bind ?_)
      exact .tally _ (.mapErr (hcrates.lzma _ _ _ _))

/-! ## ended by the writer -/

/-- What a decoder reads does not end it, and costs the writer nothing. -/
theorem settles_pull {α : Type} {Q : α × Nat → Nat → Nat → Prop} (t : Pull α) (limit : Nat)
    (hQ : ∀ p src', Q p src' room) : (pull limit t).Settles Q src room := by
  induction t generalizing limit src with
  | ret a => exact hQ _ _
  | read n k ih =>
      intro bs _
      dsimp only
      split
      · exact ih _ _
      · exact fun bs' _ => ih _ _

/-- Every pass of the bzip2 loop writes, so the cap ends it. -/
theorem settles_extractBzip2 {compressedSize : Nat} (h : room < crates.fuel) :
    (extractBzip2 crates compressedSize).Settles (fun _ _ _ => True) src room := by
  refine .loop (I := fun _ _ _ => True) (fun _ _ r => r) ?_ trivial h
  rintro s src r -
  rw [bzip2Step]
  refine .bind (settles_pull _ _ fun p src' => ?_)
  obtain ⟨⟨result, decoder⟩, limit⟩ := p
  cases result with
  | error e => trivial
  | ok buf =>
      dsimp only
      split
      · trivial
      · next hnil =>
          have hpos := List.length_pos_of_ne_nil hnil
          exact .bind (Decode.settles_writeAll fun r' hr => ⟨trivial, by omega⟩)

/-! ## ended by both -/

/-- A `refill` moves input into the buffer, and leaves none behind an empty one. -/
theorem settles_refill {Q : DeflateState crates → Nat → Nat → Prop} (s : DeflateState crates)
    (hQ : ∀ s' src', s'.inBuf.length + s'.remaining = s.inBuf.length + s.remaining →
      (s'.inBuf = [] → s'.remaining = 0) → Q s' src' room) :
    (refill crates s).Settles Q src room := by
  rw [refill]
  split
  · next h =>
      refine .bind (Decode.settles_readExact fun buf hbuf => ?_)
      refine .bind (Decode.settles_decrypt fun buf' hbuf' => ?_)
      refine hQ _ _ ?_ fun hnil => ?_
      · simp only [h.1, List.length_nil]
        omega
      · dsimp only at hnil
        simp only [hnil, List.length_nil] at hbuf'
        omega
  · next h =>
      refine hQ _ _ rfl fun hnil => ?_
      by_contra hne
      exact h ⟨hnil, Nat.pos_of_ne_zero hne⟩

/-- A pass that goes on has taken input or put something out. -/
theorem settles_deflateStep (hprogress : crates.inflate.Progresses) (s : DeflateState crates) :
    (deflateStep crates s).Settles (fun f _ room' => f.Meets
      (fun s' => s'.inBuf.length + s'.remaining + room' < s.inBuf.length + s.remaining + room)
      fun _ => True) src room := by
  rw [deflateStep]
  refine .bind (settles_refill s fun s₁ src' hleft hoffers => ?_)
  split
  · trivial
  · next decompressor consumed produced streamEnd hcall =>
      refine .bind (Decode.settles_writeSome fun room' hroom => ?_)
      have hle := crates.inflate.consumed_le _ _ _ _ _ _ _ hcall
      change Flow.Meets _ _ (deflateNext crates _ produced streamEnd)
      rcases hnext : deflateNext crates _ produced streamEnd with t | crc
      · obtain ⟨rfl, hend, hmore⟩ := deflateNext_next hnext
        have hdrop := List.length_drop (i := consumed) (l := s₁.inBuf)
        change (s₁.inBuf.drop consumed).length + s₁.remaining + room' < _
        by_cases hnil : s₁.inBuf = []
        · -- with no input left, a pass that goes on has put something out
          have hne : produced ≠ [] := fun hproduced =>
            hmore ⟨by simp [hnil], hoffers hnil, hproduced⟩
          have hpos := List.length_pos_of_ne_nil hne
          omega
        · have hbuf := List.length_pos_of_ne_nil hnil
          rcases hprogress _ _ _ _ _ _ _ hnil (by decide) hcall with hpos | hne | hend'
          · omega
          · have hpos := List.length_pos_of_ne_nil hne
            omega
          · simp [hend] at hend'
      · trivial

/-- Every pass of the Deflate loop reads or writes. -/
theorem settles_extractDeflate (hprogress : crates.inflate.Progresses) {compressedSize : Nat}
    (h : compressedSize + room < crates.fuel) :
    (extractDeflate crates compressedSize).Settles (fun _ _ _ => True) src room := by
  refine .loop (I := fun _ _ _ => True)
    (fun s _ r => s.inBuf.length + s.remaining + r) ?_ trivial (by simpa using h)
  rintro s src r -
  refine (settles_deflateStep hprogress s).mono fun f _ _ _ hf => ?_
  exact hf.mono (fun _ hlt => ⟨trivial, hlt⟩) fun _ => id

/-! ## by method -/

/-- **The decompressor of a block comes to an end.** -/
theorem settles_decompress (hcrates : crates.Settle) (method : CompressionMethod)
    {compressedSize : Nat} (maxOutput : Nat) (encrypted : Bool)
    (h : compressedSize + room < crates.fuel) :
    (decompress crates method compressedSize maxOutput encrypted).Settles (fun _ _ _ => True)
      src room := by
  cases method with
  | store => exact settles_extractStore _
  | deflate => exact settles_extractDeflate hcrates.inflate h
  | bzip2 => exact settles_extractBzip2 (by omega)
  | lzma => exact settles_extractLzma hcrates _ _
  | azo => exact .mapErr (hcrates.azo _ _ _ _ _)
  | unknown n => trivial

/-- **The decompressor of a solid stream comes to an end.** -/
theorem settles_decompressSolid (hcrates : crates.Settle) (method : CompressionMethod)
    (maxOutput : Nat) (h : src + room < crates.fuel) :
    (decompressSolid crates method src maxOutput).Settles (fun _ _ _ => True) src room := by
  cases method with
  | store => exact settles_ioCopy (Nat.lt_succ_self _)
  | deflate => exact .bind (settles_extractDeflate hcrates.inflate h)
  | bzip2 =>
      have hroom : room < crates.fuel := by omega
      exact .bind (settles_extractBzip2 hroom)
  | lzma => exact .bind (settles_extractLzma hcrates _ _)
  | azo =>
      have hazo := hcrates.azo src maxOutput false src room
      exact .bind (.mapErr hazo)
  | unknown n => trivial

/-! ## the cap -/

variable {σ : Type} {w : ByteSink IoError σ}

/-- The cap is what a capped writer pays out of. -/
theorem pays_limitWriter (hwrite : ∀ bs, Run.Ends (w.write bs)) (hflush : Run.Ends w.flush) :
    (limitWriter w).Pays (fun _ => True) Prod.snd where
  write := by
    rintro bs ⟨s, limit⟩ -
    have hends : Run.EndsIn (fun _ _ => True) (fun _ => True) ((w.write bs).run s) :=
      .of_returned (hwrite bs s) trivial
    have hle := w.write_le bs s
    simp only [limitWriter]
    split
    · exact .err ⟨trivial, le_rfl⟩
    · next hroom =>
        generalize (w.write bs).run s = r at hends hle
        cases hends with
        | ok h =>
            have hn := hle _ _ rfl
            exact .ok ⟨trivial, by dsimp only; omega⟩
        | err h => exact .err ⟨trivial, le_rfl⟩
  flush := by
    rintro ⟨s, limit⟩ -
    have hends : Run.EndsIn (fun _ _ => True) (fun _ => True) (w.flush.run s) :=
      .of_returned (hflush s) trivial
    simp only [limitWriter]
    generalize w.flush.run s = r at hends
    cases hends with
    | ok h => exact .ok ⟨trivial, le_rfl⟩
    | err h => exact .err ⟨trivial, le_rfl⟩

end Unegg
