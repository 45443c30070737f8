import Unegg.Coder.Bounded
import Unegg.Decompress.Checksum
import Unegg.Decryptor

/-!
# Unegg.Decompress.Deflate

The buffers of `extract_deflate`.

Between two calls of the inflater the input lies in two places: what is left in
the buffer, already decrypted, and what has not been read.  Each pass takes the
bytes of its call off the front of the two together (`DeflatePass.ahead`), so
the calls take the decrypted input in order, whatever they leave behind.  A pass
that goes on has taken a byte or put one out, so on a bounded writer the passes
come to an end (`extractDeflate_spec`).
-/

namespace Unegg

open Prog Crc32 Coder

/-- With input and room for output, a call takes something, puts something out,
ends the stream or fails. -/
def Inflate.Progresses (inflate : Inflate) : Prop :=
  ∀ s input cap s' consumed output done, input ≠ [] → 0 < cap →
    inflate.decompress s input cap = .ok (s', consumed, output, done) →
    0 < consumed ∨ output ≠ [] ∨ done = true

/-- A call of the inflater: the bytes it took, those it put out, and whether it
reported the end of the stream. -/
structure InflateCall where
  taken : List UInt8
  produced : List UInt8
  streamEnd : Bool
  deriving Repr, DecidableEq

section Calls

variable (crates : Crates) {σ : Type} (w : ByteSink IoError σ)

/-- The call of a pass, when the pass gets to it and it does not fail. -/
def passCall (s : DeflateState crates) (io : Io (Option Decryptor) σ) : Option InflateCall :=
  match ((refill crates s).run (decryptSome crates) w).run io with
  | (.ok s, _) =>
    match crates.inflate.decompress s.decompressor s.inBuf 4096 with
    | .ok (_, consumed, produced, streamEnd) =>
        some ⟨s.inBuf.take consumed, produced, streamEnd⟩
    | .error _ => none
  | _ => none

/-- The calls of a run of the loop, of at most so many passes. -/
def deflateCalls : Nat → DeflateState crates → Io (Option Decryptor) σ → List InflateCall
  | 0, _, _ => []
  | n + 1, s, io =>
    (passCall crates w s io).toList ++
      match ((deflateStep crates s).run (decryptSome crates) w).run io with
      | (.ok (.next s), io) => deflateCalls n s io
      | _ => []

/-- The calls of `extractDeflate`. -/
def inflateCalls (compressedSize : Nat) (io : Io (Option Decryptor) σ) : List InflateCall :=
  deflateCalls crates w crates.fuel ⟨crates.inflate.new, [], compressedSize, .new⟩ io

/-- The input ahead of the inflater, decrypted: the buffer, then what is to be read. -/
def ahead (s : DeflateState crates) (io : Io (Option Decryptor) σ) : List UInt8 :=
  s.inBuf ++ (decryptSome crates (io.rest.take s.remaining) io.crypto).1

end Calls

variable {crates : Crates} {σ : Type} {w : ByteSink IoError σ} {room : σ → Nat}
  {s s' : DeflateState crates} {io io' : Io (Option Decryptor) σ}

/-! ## the parts of a pass -/

/-- `write_all(buf)?` is the writer's, and leaves the input alone. -/
theorem Decode.writeSome_run {δ : Type} {dec : List UInt8 → δ → List UInt8 × δ} (bs : List UInt8)
    (io : Io δ σ) : ((Decode.writeSome bs).run dec w).run io =
      (((w.writeAll bs).run io.out).1.mapErr .io,
        { io with out := ((w.writeAll bs).run io.out).2 }) := by
  rw [Decode.writeSome]
  split
  · simp only [Decode.writeAll, Coder.run, ByteSink.writeAll]
    rcases (w.writeAllCounted bs).run io.out with ⟨⟨n, _ | e⟩ | e | _ | _, t⟩
    any_goals rfl
    exact e.elim
  · next hnil =>
      rw [not_not] at hnil
      subst hnil
      rfl

/-- What a `refill` does: nothing while there is input in the buffer. -/
theorem refill_run (s : DeflateState crates) (io : Io (Option Decryptor) σ) :
    ((refill crates s).run (decryptSome crates) w).run io =
      if s.inBuf = [] ∧ 0 < s.remaining then
        let toRead := min s.remaining 4096
        if (io.rest.take toRead).length < toRead then
          (.err (.io .unexpectedEof), { io with rest := io.rest.drop toRead })
        else
          (.ok { s with
            inBuf := (decryptSome crates (io.rest.take toRead) io.crypto).1
            remaining := s.remaining - toRead },
           { io with
            rest := io.rest.drop toRead
            crypto := (decryptSome crates (io.rest.take toRead) io.crypto).2 })
      else (.ok s, io) := by
  rw [refill]
  split
  · rw [run_bind]
    change ((Coder.run _ _ (if _ then _ else _)) >>= _ : Run _ _ _).run
      { io with rest := io.rest.drop (min s.remaining 4096) } = _
    dsimp only
    split
    · rfl
    · rfl
  · rfl

/-- The buffers after a `refill`. -/
structure Refilled (s : DeflateState crates) (io : Io (Option Decryptor) σ)
    (s' : DeflateState crates) (io' : Io (Option Decryptor) σ) : Prop where
  decompressor : s'.decompressor = s.decompressor
  hasher : s'.hasher = s.hasher
  out : io'.out = io.out
  ahead : ahead crates s' io' = ahead crates s io
  left : s'.inBuf.length + s'.remaining = s.inBuf.length + s.remaining
  offers : s'.inBuf = [] → s'.remaining = 0

theorem refill_ok
    (h : ((refill crates s).run (decryptSome crates) w).run io = (.ok s', io')) :
    Refilled s io s' io' := by
  rw [refill_run] at h
  split at h
  · next hempty =>
      obtain ⟨hnil, hpos⟩ := hempty
      dsimp only at h
      split at h
      · simp at h
      · next hlong =>
          simp only [Prod.mk.injEq, Outcome.ok.injEq] at h
          obtain ⟨rfl, rfl⟩ := h
          have hlen : (decryptSome crates (io.rest.take (min s.remaining 4096)) io.crypto).1.length =
              min s.remaining 4096 := by
            rw [length_decryptSome]
            rw [List.length_take] at hlong ⊢
            omega
          refine ⟨rfl, rfl, rfl, ?_, ?_, fun hbuf => ?_⟩
          · -- what was read and what is still to be read are the old rest, decrypted in two calls
            have hsplit : io.rest.take s.remaining =
                io.rest.take (min s.remaining 4096) ++
                  (io.rest.drop (min s.remaining 4096)).take
                    (s.remaining - min s.remaining 4096) := by
              rw [← List.take_add]
              congr 1
              omega
            rw [Unegg.ahead, Unegg.ahead, hnil, hsplit, decryptSome_append]
            rfl
          · simp only [hlen, hnil, List.length_nil]
            omega
          · simp only at hbuf
            rw [hbuf, List.length_nil] at hlen
            omega
  · next hfull =>
      simp only [Prod.mk.injEq, Outcome.ok.injEq] at h
      obtain ⟨rfl, rfl⟩ := h
      exact ⟨rfl, rfl, rfl, rfl, rfl, fun hnil => by
        by_contra hne
        exact hfull ⟨hnil, Nat.pos_of_ne_zero hne⟩⟩

theorem ends_refill (s : DeflateState crates) :
    Run.Ends ((refill crates s).run (decryptSome crates) w) := by
  intro io
  rw [refill_run]
  split
  · dsimp only
    split <;> rfl
  · rfl

/-! ## a pass -/

/-- What a pass of the loop has done that made `call` and came to `s'`. -/
structure DeflatePass (w : ByteSink IoError σ) (s : DeflateState crates)
    (io : Io (Option Decryptor) σ) (call : InflateCall) (s' : DeflateState crates)
    (io' : Io (Option Decryptor) σ) : Prop where
  ahead : ahead crates s io = call.taken ++ ahead crates s' io'
  left : s.inBuf.length + s.remaining = call.taken.length + s'.inBuf.length + s'.remaining
  hasher : s'.hasher = s.hasher.update call.produced
  out : (w.writeAll call.produced).run io.out = (.ok (), io'.out)
  progress : crates.inflate.Progresses → call.taken ≠ [] ∨ call.produced ≠ [] ∨
    call.streamEnd = true ∨ s'.inBuf = [] ∧ s'.remaining = 0

/-- A pass after its `refill`. -/
theorem deflateStep_run (h : ((refill crates s).run (decryptSome crates) w).run io = (.ok s', io')) :
    ((deflateStep crates s).run (decryptSome crates) w).run io =
      match crates.inflate.decompress s'.decompressor s'.inBuf 4096 with
      | .error e => (.err (.inflateFailed e), io')
      | .ok (decompressor, consumed, produced, streamEnd) =>
        match (w.writeAll produced).run io'.out with
        | (.ok (), t) => (.ok (deflateNext crates { s' with
            decompressor
            inBuf := s'.inBuf.drop consumed
            hasher := s'.hasher.update produced } produced streamEnd), { io' with out := t })
        | (.err e, t) => (.err (.io e), { io' with out := t })
        | (.panic, t) => (.panic, { io' with out := t })
        | (.hang, t) => (.hang, { io' with out := t }) := by
  rw [deflateStep, run_bind, Run.bind_of_ok h]
  rcases crates.inflate.decompress s'.decompressor s'.inBuf 4096 with
    e | ⟨decompressor, consumed, produced, streamEnd⟩
  · rfl
  · dsimp only
    rw [run_bind, Run.bind_run, Decode.writeSome_run]
    rcases (w.writeAll produced).run io'.out with ⟨_ | e | _ | _, t⟩ <;> rfl

/-- Every pass that succeeds made a call. -/
theorem deflateStep_ok {f : Prog.Flow (DeflateState crates) UInt32}
    (h : ((deflateStep crates s).run (decryptSome crates) w).run io = (.ok f, io')) :
    ∃ call s', passCall crates w s io = some call ∧
      f = deflateNext crates s' call.produced call.streamEnd ∧ DeflatePass w s io call s' io' := by
  rcases hrefill : ((refill crates s).run (decryptSome crates) w).run io with
    ⟨s₁ | e | _ | _, io₁⟩
  · rw [deflateStep_run hrefill] at h
    obtain ⟨-, hhasher, hout, hahead, hleft, hoffers⟩ := refill_ok hrefill
    rcases hcall : crates.inflate.decompress s₁.decompressor s₁.inBuf 4096 with
      e | ⟨decompressor, consumed, produced, streamEnd⟩
    · simp [hcall] at h
    · rw [hcall] at h
      dsimp only at h
      rcases hwrite : (w.writeAll produced).run io₁.out with ⟨_ | e | _ | _, t⟩
      · simp only [hwrite, Prod.mk.injEq, Outcome.ok.injEq] at h
        obtain ⟨rfl, rfl⟩ := h
        have hle := crates.inflate.consumed_le _ _ _ _ _ _ _ hcall
        refine ⟨⟨s₁.inBuf.take consumed, produced, streamEnd⟩, _, ?_, rfl, ?_, ?_, ?_, ?_, ?_⟩
        · rw [passCall, hrefill]
          simp only [hcall]
        · rw [← hahead, Unegg.ahead, Unegg.ahead, ← List.append_assoc, List.take_append_drop]
        · simp only [List.length_take, List.length_drop]
          omega
        · rw [← hhasher]
        · rw [← hout]
          exact hwrite
        · intro hprogress
          by_cases hnil : s₁.inBuf = []
          · exact .inr (.inr (.inr ⟨by simp [hnil], hoffers hnil⟩))
          · rcases hprogress _ _ _ _ _ _ _ hnil (by decide) hcall with hpos | hne | hend
            · refine .inl (List.ne_nil_of_length_pos ?_)
              have hbuf := List.length_pos_of_ne_nil hnil
              simp only [List.length_take]
              omega
            · exact .inr (.inl hne)
            · exact .inr (.inr (.inl hend))
      all_goals simp [hwrite] at h
  all_goals
    rw [deflateStep, run_bind, Run.bind_run, hrefill] at h
    simp at h

/-- The bytes a call takes are the next ones, whatever becomes of the pass. -/
theorem passCall_taken {call : InflateCall} (h : passCall crates w s io = some call) :
    call.taken <+: ahead crates s io := by
  rw [passCall] at h
  split at h
  · next s₁ io₁ hrefill =>
      split at h
      · next consumed _ _ _ =>
          obtain rfl := Option.some.inj h
          rw [← (refill_ok hrefill).ahead]
          exact (List.take_prefix _ _).trans (List.prefix_append _ _)
      · simp at h
  · simp at h

theorem ends_deflateStep (hw : w.Bounded room) (s : DeflateState crates) :
    Run.Ends ((deflateStep crates s).run (decryptSome crates) w) := by
  rw [deflateStep, run_bind]
  refine .bind (ends_refill s) fun s' => ?_
  split
  · exact .throw _
  · next produced _ _ =>
      rw [run_bind]
      refine .bind (fun io => ?_) fun _ => .pure _
      have hends := ByteSink.ends_writeAll hw.ends produced io.out
      rw [Decode.writeSome_run]
      rcases hwrite : (w.writeAll produced).run io.out with ⟨_ | e | _ | _, t⟩
      · rfl
      · rfl
      all_goals
        rw [hwrite] at hends
        exact hends

/-! ## the loop -/

theorem deflateNext_next {produced : List UInt8} {streamEnd : Bool} {t : DeflateState crates}
    (h : deflateNext crates s produced streamEnd = .next t) :
    t = s ∧ streamEnd = false ∧ ¬(s.inBuf = [] ∧ s.remaining = 0 ∧ produced = []) := by
  rw [deflateNext] at h
  split at h
  · simp at h
  · next hend =>
      split at h
      · simp at h
      · next hmore =>
          simp only [Flow.next.injEq] at h
          exact ⟨h.symm, by simpa using hend, hmore⟩

theorem deflateNext_done {produced : List UInt8} {streamEnd : Bool} {c : UInt32}
    (h : deflateNext crates s produced streamEnd = .done c) :
    c = s.hasher.finalize ∧
      (streamEnd = true ∨ s.inBuf = [] ∧ s.remaining = 0 ∧ produced = []) := by
  rw [deflateNext] at h
  split at h
  · next hend =>
      simp only [Flow.done.injEq] at h
      exact ⟨h.symm, .inl hend⟩
  · split at h
    · next hlast =>
        simp only [Flow.done.injEq] at h
        exact ⟨h.symm, .inr hlast⟩
    · simp at h

/-- A pass that goes on leaves less input, or less room. -/
theorem deflateStep_decreases (hprogress : crates.inflate.Progresses) (hw : w.Bounded room)
    (h : ((deflateStep crates s).run (decryptSome crates) w).run io = (.ok (.next s'), io')) :
    s'.inBuf.length + s'.remaining + room io'.out <
      s.inBuf.length + s.remaining + room io.out := by
  obtain ⟨call, s₁, -, hf, hpass⟩ := deflateStep_ok h
  obtain ⟨rfl, hend, hmore⟩ := deflateNext_next hf.symm
  have hleft := hpass.left
  have hpaid := hw.writeAll hpass.out
  rcases hpass.progress hprogress with htaken | hproduced | hend' | ⟨hnil, hzero⟩
  · have hpos := List.length_pos_of_ne_nil htaken
    omega
  · have hpos := List.length_pos_of_ne_nil hproduced
    omega
  · simp [hend] at hend'
  · have hne : call.produced ≠ [] := fun hproduced => hmore ⟨hnil, hzero, hproduced⟩
    have hpos := List.length_pos_of_ne_nil hne
    omega

/-- The calls of a run take the input in order, however the run ends. -/
theorem deflateCalls_taken (n : Nat) (s : DeflateState crates) (io : Io (Option Decryptor) σ) :
    (deflateCalls crates w n s io).flatMap InflateCall.taken <+: ahead crates s io := by
  induction n generalizing s io with
  | zero => exact List.nil_prefix
  | succ n ih =>
      rw [deflateCalls]
      split
      · next s' io' hstep =>
          obtain ⟨call, s₁, hcall, hf, hpass⟩ := deflateStep_ok hstep
          obtain ⟨rfl, -, -⟩ := deflateNext_next hf.symm
          rw [hcall, hpass.ahead, Option.toList_some, List.singleton_append, List.flatMap_cons]
          exact (List.prefix_append_right_inj _).mpr (ih s' io')
      · rcases hcall : passCall crates w s io with _ | call
        · exact List.nil_prefix
        · simpa using passCall_taken hcall

/-- What a loop that succeeded has done. -/
structure DeflateDone (w : ByteSink IoError σ) (s : DeflateState crates)
    (io : Io (Option Decryptor) σ) (calls : List InflateCall) (c : UInt32)
    (io' : Io (Option Decryptor) σ) : Prop where
  checksum : c = (s.hasher.update (calls.flatMap InflateCall.produced)).finalize
  out : ∀ I : List UInt8 → σ → Prop, w.Takes I → ∀ d, I d io.out →
    I (d ++ calls.flatMap InflateCall.produced) io'.out
  last : ∃ call, calls.getLast? = some call ∧ (call.streamEnd = true ∨ call.produced = [] ∧
    (calls.flatMap InflateCall.taken).length = s.inBuf.length + s.remaining)

theorem DeflatePass.writes {call : InflateCall} (hpass : DeflatePass w s io call s' io')
    {I : List UInt8 → σ → Prop} (hI : w.Takes I) {d : List UInt8} (h : I d io.out) :
    I (d ++ call.produced) io'.out :=
  ByteSink.writeAll_induction hI.write_ok h hpass.out

theorem deflateLoop_ok {n : Nat} {c : UInt32}
    (h : ((Coder.loop (deflateStep crates) n s).run (decryptSome crates) w).run io =
      (.ok c, io')) : DeflateDone w s io (deflateCalls crates w n s io) c io' := by
  induction n generalizing s io with
  | zero => simp [Coder.loop, Coder.run] at h
  | succ n ih =>
      rw [Coder.loop, run_bind, Run.bind_ok] at h
      obtain ⟨f, io₁, hstep, h⟩ := h
      obtain ⟨call, s', hcall, rfl, hpass⟩ := deflateStep_ok hstep
      rw [deflateCalls, hcall, hstep]
      rcases hnext : deflateNext crates s' call.produced call.streamEnd with t | crc
      · rw [hnext] at h
        obtain ⟨rfl, -, -⟩ := deflateNext_next hnext
        obtain ⟨hchecksum, hout, last, hlast, hends⟩ := ih h
        refine ⟨?_, fun I hI d hd => ?_, last, ?_, ?_⟩
        · simp [hchecksum, hpass.hasher]
        · have hd' := hout I hI _ (hpass.writes hI hd)
          simpa using hd'
        · simp [List.getLast?_cons, hlast]
        · refine hends.imp_right fun hend => ⟨hend.1, ?_⟩
          simp [hend.2, hpass.left]
          omega
      · rw [hnext] at h
        obtain ⟨hc, hio⟩ := Prod.mk.injEq .. ▸ h
        obtain rfl := Outcome.ok.inj hc
        subst hio
        obtain ⟨rfl, hlast⟩ := deflateNext_done hnext
        refine ⟨?_, fun I hI d hd => ?_, call, ?_, ?_⟩
        · simp [hpass.hasher]
        · simpa using hpass.writes hI hd
        · simp
        · refine hlast.imp_right fun hend => ⟨hend.2.2, ?_⟩
          have hleft := hpass.left
          simp only [hend.1, hend.2.1, List.length_nil] at hleft
          simpa using hleft.symm

theorem deflateLoop_ends (hprogress : crates.inflate.Progresses) (hw : w.Bounded room) {n : Nat}
    (hn : s.inBuf.length + s.remaining + room io.out < n) :
    ((Coder.loop (deflateStep crates) n s).run (decryptSome crates) w |>.run io).1.returned := by
  rw [run_loop]
  exact Run.loop_ends (fun s io => s.inBuf.length + s.remaining + room io.out)
    (ends_deflateStep hw) (fun _ _ _ _ => deflateStep_decreases hprogress hw) hn

/-- **Deflate loses nothing.**  Take any decoder that keeps to its buffers and
makes progress, and any bounded writer (the log is that of the run on the logged
writer, which is otherwise the run on the writer).  With passes enough for the
input and the room of the writer, the loop comes back.  However it ends, the
decoder has taken the decrypted input in order, from its start.  When it
succeeds, the writer and the checksum have got what the decoder put out, and the
last call reported the end of the stream, or put out nothing with all of the
input taken. -/
theorem extractDeflate_spec (hprogress : crates.inflate.Progresses) (hw : w.Bounded room)
    (compressedSize : Nat) (bs : List UInt8) (crypto : Option Decryptor) (out : σ) :
    let calls := inflateCalls crates w.logged compressedSize ⟨bs, crypto, (out, [])⟩
    let taken := calls.flatMap InflateCall.taken
    let produced := calls.flatMap InflateCall.produced
    ∃ (o : Outcome EggError UInt32) (bs' : List UInt8) (crypto' : Option Decryptor) (out' : σ)
      (log : List UInt8),
      ((extractDeflate crates compressedSize).run (decryptSome crates) w).run ⟨bs, crypto, out⟩ =
          (o, ⟨bs', crypto', out'⟩) ∧
        ((extractDeflate crates compressedSize).run (decryptSome crates) w.logged).run
          ⟨bs, crypto, (out, [])⟩ = (o, ⟨bs', crypto', (out', log)⟩) ∧
        (compressedSize + room out < crates.fuel → o.returned) ∧
        taken <+: (decryptSome crates (bs.take compressedSize) crypto).1 ∧
        ∀ c, o = .ok c → log = produced ∧ c = crc32 produced ∧
          ∃ last, calls.getLast? = some last ∧
            (last.streamEnd = true ∨ last.produced = [] ∧ taken.length = compressedSize) := by
  intro calls taken produced
  let start : DeflateState crates := ⟨crates.inflate.new, [], compressedSize, .new⟩
  have hsame : Coder.SameIo (fun s (p : σ × List UInt8) => p.1 = s) ⟨bs, crypto, out⟩
      ⟨bs, crypto, (out, [])⟩ := ⟨rfl, rfl, rfl⟩
  have hstep := (ByteSink.inStep_logged (w := w)).run (decryptSome crates)
    (extractDeflate crates compressedSize) hsame
  rcases hplain : ((extractDeflate crates compressedSize).run (decryptSome crates) w).run
    ⟨bs, crypto, out⟩ with ⟨o, bs', crypto', out'⟩
  rcases hlogged : ((extractDeflate crates compressedSize).run (decryptSome crates) w.logged).run
    ⟨bs, crypto, (out, [])⟩ with ⟨o', bs'', crypto'', out'', log⟩
  rw [hplain, hlogged] at hstep
  obtain rfl : o = o' := hstep.outcome
  have hrelated := hstep.related
  obtain rfl : bs' = bs'' := hrelated.rest
  obtain rfl : crypto' = crypto'' := hrelated.crypto
  obtain rfl : out'' = out' := hrelated.out
  refine ⟨o, bs', crypto', out'', log, rfl, rfl, fun hfuel => ?_, ?_, ?_⟩
  · have hroom : start.inBuf.length + start.remaining + room out < crates.fuel := by
      simpa [start] using hfuel
    have hends : ((Coder.loop (deflateStep crates) crates.fuel start).run (decryptSome crates) w
        |>.run ⟨bs, crypto, out⟩).1.returned := deflateLoop_ends hprogress hw hroom
    rwa [← extractDeflate, hplain] at hends
  · exact deflateCalls_taken _ start _
  · rintro c rfl
    have hdone := deflateLoop_ok (s := start) hlogged
    obtain ⟨last, hlast, hends⟩ := hdone.last
    refine ⟨hdone.out _ ByteSink.takes_logged [] rfl, hdone.checksum, last, hlast, ?_⟩
    exact hends.imp_right fun ⟨hnil, hlen⟩ => ⟨hnil, hlen.trans (Nat.zero_add _)⟩

/-- A decoder of bytes that stand for themselves: it takes at most two at a time,
and tells the end by a zero. -/
def pairInflate : Inflate where
  State := Unit
  new := ()
  decompress := fun _ input cap =>
    let taken := input.take (min 2 cap)
    .ok ((), taken.length, taken, taken.contains 0)
  consumed_le := by
    intro s input cap s' consumed output done h
    simp only [Except.ok.injEq, Prod.mk.injEq] at h
    rw [← h.2.1]
    exact List.length_take_le' _ _
  produced_le := by
    intro s input cap s' consumed output done h
    simp only [Except.ok.injEq, Prod.mk.injEq] at h
    rw [← h.2.2.1]
    exact (List.length_take_le _ _).trans (min_le_right _ _)

theorem pairInflate_progresses : pairInflate.Progresses := by
  intro s input cap s' consumed output done hne hcap h
  have hconsumed : (input.take (min 2 cap)).length = consumed :=
    congrArg (fun r => r.2.1) (Except.ok.inj h)
  have hpos := List.length_pos_of_ne_nil hne
  rw [List.length_take] at hconsumed
  omega

/-! ## the cap -/

/-- The cap bounds any writer that comes back: it is one to which
`extractDeflate_spec` applies. -/
theorem bounded_limitWriter (hw : ∀ bs, Run.Ends (w.write bs)) :
    (limitWriter w).Bounded Prod.snd where
  ends := by
    intro bs p
    have hends := hw bs p.1
    simp only [limitWriter]
    split
    · rfl
    · rcases hrun : (w.write bs).run p.1 with ⟨n | e | _ | _, s⟩
      · rfl
      · rfl
      all_goals
        rw [hrun] at hends
        exact hends
  write_ok := by
    intro bs p n p' h
    simp only [limitWriter] at h
    split at h
    · simp at h
    · rcases hrun : (w.write bs).run p.1 with ⟨m | e | _ | _, s⟩
      · simp only [hrun, Prod.mk.injEq, Outcome.ok.injEq] at h
        obtain ⟨rfl, rfl⟩ := h
        have hle := w.write_le _ _ _ _ hrun
        dsimp only
        omega
      all_goals simp [hrun] at h

/-- Five bytes, of which the stream has four, to a writer that may take six. -/
theorem extractDeflate_pairs :
    let crates := { Crates.storeOnly with inflate := pairInflate, fuel := 12 }
    let io : Io (Option Decryptor) ((List UInt8 × Nat) × List UInt8) :=
      ⟨[0x61, 0x62, 0x63, 0, 0x64], none, (([], 6), [])⟩
    let calls := inflateCalls crates (limitWriter ByteSink.recorder).logged 5 io
    let run := ((extractDeflate crates 5).run (decryptSome crates)
      (limitWriter ByteSink.recorder).logged).run io
    calls = [⟨[0x61, 0x62], [0x61, 0x62], false⟩, ⟨[0x63, 0], [0x63, 0], true⟩] ∧
      run.1.returned ∧ run.2.out.2 = [0x61, 0x62, 0x63, 0] := by
  intro crates io calls run
  have hcalls : calls = [⟨[0x61, 0x62], [0x61, 0x62], false⟩, ⟨[0x63, 0], [0x63, 0], true⟩] := by
    decide +kernel
  obtain ⟨o, bs', crypto', out', log, -, hrun, hends, -, hok⟩ :=
    extractDeflate_spec (show crates.inflate.Progresses from pairInflate_progresses)
      (bounded_limitWriter (w := ByteSink.recorder) fun _ _ => rfl) 5
      [0x61, 0x62, 0x63, 0, 0x64] none ([], 6)
  have hout : o = .ok (crc32 [0x61, 0x62, 0x63, 0]) :=
    (congrArg Prod.fst hrun).symm.trans (by decide +kernel)
  refine ⟨hcalls, ?_, ?_⟩
  · simp only [run, io, hrun]
    exact hends (by decide)
  · simp only [run, io, hrun, (hok _ hout).1]
    change calls.flatMap InflateCall.produced = _
    rw [hcalls]
    rfl

end Unegg
