import Unegg.Extract
import Unegg.SolidSink

/-!
# Unegg.SolidSink.Steps

The steps of the sink, however its calls end.

A method of the sink changes its counters, opens the output of an entry, or
writes to the output that is open.  A relation that holds of these three holds
of every method, and of a whole run of a decompressor into the sink
(`MethodRule.decompressInto`).
-/

namespace Unegg

open Prog

namespace SolidSink

/-- What is asked of a relation that every method of the sink is to follow. -/
structure MethodRule (os : Os) (cfg : SinkConfig)
    (R : SolidSink × World → SolidSink × World → Prop) : Prop where
  refl : ∀ p, R p p
  trans : ∀ p q r, R p q → R q r → R p r
  /-- The counters change, or the open output is closed. -/
  update : ∀ s s' w, s'.created = s.created → (s'.writer = s.writer ∨ s'.writer = none) →
    R (s, w) (s', w)
  openOutput : ∀ entry ∈ cfg.entries, Run.Steps R (openOutput os cfg entry)
  writeTo : ∀ s w bs, R (s, w) (s, ((os.writeTo s.writer bs).run w).2)
  flush : ∀ s t w, s.writer = some t → R (s, w) (s, ((os.sink t).flush.run w).2)

namespace MethodRule

variable {os : Os} {cfg : SinkConfig} {R : SolidSink × World → SolidSink × World → Prop}
  (hR : MethodRule os cfg R)
include hR

theorem std_refl : Std.Refl R := ⟨hR.refl⟩

theorem isTrans : IsTrans (SolidSink × World) R := ⟨hR.trans⟩

theorem self : Run.Steps R self := fun p => hR.refl p

/-- A change of counters is a step, if it opens no file. -/
theorem modify {f : SolidSink → SolidSink} (hcreated : ∀ s, (f s).created = s.created)
    (hwriter : ∀ s, (f s).writer = s.writer ∨ (f s).writer = none) : Run.Steps R (modify f) :=
  fun p => hR.update p.1 (f p.1) p.2 (hcreated _) (hwriter _)

/-- Opening the file of the next byte is a step. -/
theorem ensureFileOpen : Run.Steps R (ensureFileOpen os cfg) := by
  have := hR.std_refl
  have := hR.isTrans
  refine .bind hR.self fun s => ?_
  split
  · exact .pure _
  · refine .bind (hR.modify (fun _ => rfl) fun _ => .inl rfl) fun _ => ?_
    split
    · exact .panic
    · next entry hentry =>
        have hmem : entry ∈ cfg.entries := by
          rw [SinkConfig.entryAt, Option.bind_eq_some_iff] at hentry
          obtain ⟨span, -, hspan⟩ := hentry
          exact List.mem_of_getElem? hspan
        exact .ite (hR.openOutput entry hmem) (.pure _)

/-- Passing full files is a step. -/
theorem advanceFullFiles : Run.Steps R (advanceFullFiles os cfg) := by
  have := hR.std_refl
  have := hR.isTrans
  refine .loop (fun u => .bind hR.self fun s => ?_) _ _
  split
  · exact .pure _
  · refine .ite (.pure _) (.bind hR.ensureFileOpen fun _ => .bind ?_ fun _ => .pure _)
    exact hR.modify (fun _ => rfl) fun _ => .inr rfl

/-- Finishing a block is a step. -/
theorem finishBlock (crcSize : Nat) (crc : UInt32) : Run.Steps R (finishBlock crcSize crc) := by
  have := hR.std_refl
  have := hR.isTrans
  refine .bind hR.self fun s => .ite ?_ (.pure _)
  refine .bind (hR.modify (fun _ => rfl) fun _ => .inl rfl) fun _ => .ite (.throw _) ?_
  exact hR.modify (fun _ => rfl) fun _ => .inl rfl

/-- Writing a chunk is a step. -/
theorem writeChunk (chunk : List UInt8) : Run.Steps R (writeChunk os chunk) := by
  have := hR.std_refl
  have := hR.isTrans
  refine .bind (hR.modify (fun _ => rfl) fun _ => .inl rfl) fun _ => ?_
  rintro ⟨s, w⟩
  rw [Run.bind_of_ok (self_run _)]
  exact Run.step_bind (hR.writeTo s w chunk) fun _ p _ => hR.update p.1 _ p.2 rfl (.inl rfl)

/-- A pass is a step. -/
theorem writeStep (rest : List UInt8) : Run.Steps R (writeStep os cfg rest) := by
  have := hR.std_refl
  have := hR.isTrans
  unfold SolidSink.writeStep
  refine .ite (.pure _) (.bind hR.advanceFullFiles fun _ => .bind hR.self fun s => ?_)
  simp only
  split
  · exact .throw _
  · split
    · exact .throw _
    · refine .bind hR.ensureFileOpen fun _ => .ite .panic ?_
      refine .bind (hR.writeChunk _) fun _ => .bind (hR.finishBlock _ _) fun _ => .pure _

/-- A whole write is a step. -/
theorem write (buf : List UInt8) : Run.Steps R (write os cfg buf) := by
  have := hR.std_refl
  have := hR.isTrans
  exact .bind (.loop hR.writeStep _ _) fun _ => .pure _

theorem flush_steps : Run.Steps R (SolidSink.flush os) := by
  have := hR.std_refl
  rintro ⟨s, w⟩
  rw [SolidSink.flush, Run.bind_of_ok (self_run _)]
  split
  · next t ht => exact hR.flush s t w ht
  · exact hR.refl _

/-- The end of the stream is a step. -/
theorem finish : Run.Steps R (finish os cfg) := by
  have := hR.std_refl
  have := hR.isTrans
  refine .bind (.mapErr hR.advanceFullFiles) fun _ => .bind (.mapErr hR.self) fun s => ?_
  exact .ite (.throw _) (.pure _)

/-- **A whole run of a decompressor into the sink.** -/
theorem decompressInto (decode : Decode Unit) (stream : List UInt8) :
    Run.Steps R (decompressInto os cfg decode stream) := by
  have := hR.std_refl
  have := hR.isTrans
  refine .bind (fun p => ?_) fun _ => hR.finish
  exact Coder.steps_run hR.write hR.flush_steps decode { rest := stream, crypto := (), out := p }

end MethodRule

end SolidSink

end Unegg
