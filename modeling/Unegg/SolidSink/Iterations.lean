import Unegg.Coder.Bounded
import Unegg.SolidSink.Split
import Unegg.SolidSink.Tilings

/-!
# Unegg.SolidSink.Iterations

The passes of the loop of `write`, on any spans and whatever the system answers.

At the head of every pass the counters of the sink agree with the bytes it has
taken (`Coupled`); that is what its two tilings say (`At.coupled`).  Hence the
subtractions of a pass have room, every pass that goes on takes a byte or passes a
block, and the loop comes to an end (`write_iterations`).  The one panic that is
left is a file span that belongs to no entry.
-/

namespace Unegg

open Prog Crc32 Tiling

namespace SolidSink

/-- What ties the sink to the bytes `d` that it has taken. -/
structure Coupled (cfg : SinkConfig) (d : List UInt8) (s : SolidSink) : Prop where
  fileIdx_le : s.fileIdx ≤ cfg.fileSpans.length
  fileWritten_le : ∀ span ∈ cfg.fileSpans[s.fileIdx]?, s.fileWritten ≤ span.2
  crcIdx_le : s.crcIdx ≤ cfg.crcSpans.length
  crcWritten_le : ∀ span ∈ cfg.crcSpans[s.crcIdx]?, s.crcWritten ≤ span.1
  /-- Only an empty block can be full. -/
  crcWritten_eq : ∀ span ∈ cfg.crcSpans[s.crcIdx]?, s.crcWritten = span.1 →
    s.crcWritten = 0 ∧ span.1 = 0
  hasher_eq : s.hasher = Hasher.new.update (d.drop (d.length - s.crcWritten))
  file_bytes : d.length = ((cfg.fileSpans.take s.fileIdx).map Prod.snd).sum + s.fileWritten
  crc_bytes : d.length = ((cfg.crcSpans.take s.crcIdx).map Prod.fst).sum + s.crcWritten

/-- Both subtractions of a pass have room. -/
structure HasRoom (cfg : SinkConfig) (s : SolidSink) : Prop where
  file : ∀ span ∈ cfg.fileSpans[s.fileIdx]?, s.fileWritten ≤ span.2
  block : ∀ span ∈ cfg.crcSpans[s.crcIdx]?, s.crcWritten ≤ span.1

/-- The current file span is there, but its entry is not. -/
def MissingEntry (cfg : SinkConfig) (p : SolidSink × World) : Prop :=
  ∃ span, cfg.fileSpans[p.1.fileIdx]? = some span ∧ cfg.entries[span.1]? = none

/-- What a pass over `rest` that starts in `p` comes to. -/
def PassResult (cfg : SinkConfig) (rest : List UInt8) (p : SolidSink × World) :
    Outcome IoError (Prog.Flow (List UInt8) Unit) × (SolidSink × World) → Prop
  | (.ok (.done _), _) => rest = []
  | (.ok (.next rest'), p') => rest' <:+ rest ∧
      (rest'.length < rest.length ∨ p'.1.crcIdx = p.1.crcIdx + 1)
  | (.err _, _) => True
  | (.panic, p') => MissingEntry cfg p'
  | (.hang, _) => False

variable {os : Os} {cfg : SinkConfig} {w₀ : World} {fs bs : List (List UInt8)}
  {f b d : List UInt8} {p p' : SolidSink × World}

/-! ## the counters -/

/-- The two tilings of the bytes settle the counters. -/
theorem At.coupled (hAt : At cfg w₀ fs f bs b p)
    (hpart : b = [] ∨ Wanting (cfg.crcSpans.map Prod.fst) bs b) :
    Coupled cfg (bs.flatten ++ b) p.1 := by
  have hsize : ∀ span ∈ cfg.crcSpans[p.1.crcIdx]?,
      (cfg.crcSpans.map Prod.fst)[bs.length]? = some span.1 := by
    intro span hspan
    rw [← hAt.crcIdx, List.getElem?_map, Option.mem_def.mp hspan]
    rfl
  have hlen : (bs.flatten ++ b).length - p.1.crcWritten = bs.flatten.length := by
    rw [List.length_append, hAt.crcWritten, Nat.add_sub_cancel]
  exact {
    fileIdx_le := by simpa [hAt.fileIdx] using hAt.files.length_le
    fileWritten_le := by
      intro span hspan
      rw [hAt.fileWritten]
      refine hAt.files.part_le _ ?_
      rw [← hAt.fileIdx, List.getElem?_map, Option.mem_def.mp hspan]
      rfl
    crcIdx_le := by simpa [hAt.crcIdx] using hAt.blocks.length_le
    crcWritten_le := by
      intro span hspan
      rw [hAt.crcWritten]
      exact hAt.blocks.part_le _ (hsize span hspan)
    crcWritten_eq := by
      intro span hspan hfull
      rw [hAt.crcWritten] at hfull ⊢
      rcases hpart with rfl | hwant
      · exact ⟨rfl, hfull.symm⟩
      · exact absurd hfull (hwant _ (hsize span hspan)).ne
    hasher_eq := by rw [hlen, List.drop_left' rfl, hAt.hasher]
    file_bytes := by
      rw [← hAt.flat, List.length_append, hAt.files.length_flatten, hAt.fileWritten, hAt.fileIdx,
        List.map_take]
    crc_bytes := by
      rw [List.length_append, hAt.blocks.length_flatten, hAt.crcWritten, hAt.crcIdx, List.map_take] }

/-- While a write goes on its counters are coupled to the bytes taken. -/
theorem Taking.coupled {rest : List UInt8} (hold : Taking cfg w₀ rest d p) :
    Coupled cfg d p.1 := by
  obtain ⟨fs, f, bs, b, hAt, hpart, -, rfl⟩ := hold
  exact hAt.coupled hpart

/-- Behind `advance_full_files` there is room. -/
theorem At.hasRoom (hAt : At cfg w₀ fs f bs b p) : HasRoom cfg p.1 where
  file := by
    intro span hspan
    rw [hAt.fileWritten]
    refine hAt.files.part_le _ ?_
    rw [← hAt.fileIdx, List.getElem?_map, Option.mem_def.mp hspan]
    rfl
  block := by
    intro span hspan
    rw [hAt.crcWritten]
    refine hAt.blocks.part_le _ ?_
    rw [← hAt.crcIdx, List.getElem?_map, Option.mem_def.mp hspan]
    rfl

/-! ## calls come back -/

/-- A call to the system comes back if what is called does. -/
theorem ends_call {α : Type} {m : Run World IoError α} (h : Run.Ends m) : Run.Ends (call m) :=
  fun p => h p.2

theorem ends_modify (f : SolidSink → SolidSink) : Run.Ends (modify f) := fun _ => rfl

variable (os) in
theorem ends_mkdirAll (path : Path) : Run.Ends (os.mkdirAll path) := by
  intro w
  simp only [Os.mkdirAll]
  split <;> rfl

variable (os) in
theorem ends_createFile (path : Path) : Run.Ends (os.createFile path) := by
  intro w
  simp only [Os.createFile]
  split <;> rfl

variable (os) in
/-- Making the parent of a file comes back. -/
theorem ends_createParent (path : Path) : Run.Ends (os.createParent path) := by
  rw [Os.createParent]
  split
  · exact ends_mkdirAll os _
  · exact .pure ()

variable (os) in
/-- Writing to a file comes back. -/
theorem ends_writeTo (writer : Option Target) (bs : List UInt8) :
    Run.Ends (os.writeTo writer bs) := by
  cases writer with
  | none => exact .pure ()
  | some t =>
      refine ByteSink.ends_writeAll (fun bs w => ?_) bs
      simp only [Os.sink]
      split <;> rfl

/-- Opening an output comes back. -/
theorem ends_openOutput (entry : EggFileEntry) : Run.Ends (openOutput os cfg entry) := by
  rw [openOutput]
  refine .ite (.bind (ends_call fun _ => rfl) fun _ => ends_modify _) ?_
  exact .bind (.ofExcept _) fun path => .bind (ends_call (ends_createParent os path)) fun _ =>
    .bind (ends_call (ends_createFile os path)) fun _ => ends_modify _

/-- A chunk is written or refused. -/
theorem ends_writeChunk (chunk : List UInt8) : Run.Ends (writeChunk os chunk) :=
  .bind (ends_modify _) fun _ => .bind (fun _ => rfl) fun s =>
    .bind (ends_call (ends_writeTo os s.writer chunk)) fun _ => ends_modify _

/-- A block is finished or found corrupted. -/
theorem ends_finishBlock (crcSize : Nat) (crc : UInt32) : Run.Ends (finishBlock crcSize crc) :=
  .bind (fun _ => rfl) fun _ =>
    .ite (.bind (ends_modify _) fun _ => .ite (.throw _) (ends_modify _)) (.pure _)

/-! ## the one panic -/

/-- Opening a file looks up a span that is there. -/
theorem ensureFileOpen_returnsOr {span : Nat × Nat} (hspan : cfg.fileSpans[p.1.fileIdx]? = some span) :
    Run.ReturnsOr (MissingEntry cfg) ((ensureFileOpen os cfg).run p) := by
  rw [ensureFileOpen, Run.bind_of_ok (self_run p)]
  split
  · exact .inl rfl
  · rw [Run.bind_of_ok (modify_run _ p)]
    cases hentry : cfg.entryAt p.1.fileIdx with
    | none =>
        rw [SinkConfig.entryAt, hspan] at hentry
        exact .inr ⟨rfl, span, hspan, hentry⟩
    | some entry => exact .of_ends (.ite (ends_openOutput entry) (.pure _)) _

/-- Passing full files comes back, unless a span leads to no entry. -/
theorem advanceFullFiles_returnsOr (hAt : At cfg w₀ fs f bs b p) :
    Run.ReturnsOr (MissingEntry cfg) ((advanceFullFiles os cfg).run p) := by
  refine .loop (I := fun _ q => ∃ fs f, At cfg w₀ fs f bs b q)
    (fun _ q => cfg.fileSpans.length - q.1.fileIdx) ?_ ?_ ⟨fs, f, hAt⟩
    (Nat.lt_succ_of_le (Nat.sub_le _ _))
  · rintro u q -
    rw [advanceStep, Run.bind_of_ok (self_run q)]
    cases hspan : cfg.fileSpans[q.1.fileIdx]? with
    | none => exact .inl rfl
    | some span =>
        simp only
        split
        · exact .inl rfl
        · exact .bind (ensureFileOpen_returnsOr hspan) fun _ _ _ => .inl rfl
  · rintro u q u' q' ⟨fs, f, hAt⟩ hstep
    obtain ⟨hAt', hlt⟩ := hAt.advanceStep_next hstep
    exact ⟨⟨_, _, hAt'⟩, hlt⟩

/-- **One pass**: it comes back, or panics for want of an entry. -/
theorem writeStep_returnsOr (rest : List UInt8) (hAt : At cfg w₀ fs f bs b p) :
    Run.ReturnsOr (MissingEntry cfg) ((writeStep os cfg rest).run p) := by
  rw [writeStep]
  split
  · exact .inl rfl
  refine .bind (advanceFullFiles_returnsOr hAt) fun _ p₁ hadv => ?_
  obtain ⟨fs, f, hAt, -⟩ := advanceFullFiles_ok hAt hadv
  rw [Run.bind_of_ok (self_run p₁)]
  cases hspan : cfg.fileSpans[p₁.1.fileIdx]? with
  | none => exact .inl rfl
  | some span =>
      cases hblock : cfg.crcSpans[p₁.1.crcIdx]? with
      | none => exact .inl rfl
      | some block =>
          have hfile := hAt.hasRoom.file span hspan
          have hcrc := hAt.hasRoom.block block hblock
          refine .bind (ensureFileOpen_returnsOr hspan) fun _ p₂ _ => ?_
          rw [if_neg (by omega)]
          exact .of_ends (.bind (ends_writeChunk _) fun _ => .bind (ends_finishBlock _ _) fun _ =>
            .pure _) p₂

/-- **One pass** takes a byte or passes a block, when it goes on. -/
theorem writeStep_result {rest : List UInt8} (hold : Taking cfg w₀ rest d p) :
    PassResult cfg rest p ((writeStep os cfg rest).run p) := by
  obtain ⟨fs, f, bs, b, hAt, -, -, rfl⟩ := hold
  have hreturns : Run.ReturnsOr (MissingEntry cfg) ((writeStep os cfg rest).run p) :=
    writeStep_returnsOr rest hAt
  rcases hrun : (writeStep os cfg rest).run p with ⟨(rest' | u) | e | _ | _, p'⟩
  · obtain ⟨chunk, fs', f', rfl, -, hAt' | ⟨-, hchunk, -⟩⟩ := writeStep_ok hAt hrun
    · refine ⟨List.suffix_append chunk rest', .inr ?_⟩
      rw [hAt'.crcIdx, hAt.crcIdx, List.length_append, List.length_singleton]
    · refine ⟨List.suffix_append chunk rest', .inl ?_⟩
      have hpos := List.length_pos_of_ne_nil hchunk
      rw [List.length_append]
      omega
  · exact (writeStep_done hrun).1
  · trivial
  · rw [hrun] at hreturns
    exact hreturns.of_panic
  · rw [hrun] at hreturns
    exact hreturns.not_hang

/-! ## whole calls -/

/-- **Termination of `write`**: what is left of the buffer and the blocks that are
not passed fall together. -/
theorem write_returnsOr (buf : List UInt8) (hold : Holds cfg w₀ d p) :
    Run.ReturnsOr (MissingEntry cfg) ((write os cfg buf).run p) := by
  obtain ⟨fs, f, bs, b, hAt, -, -, rfl⟩ := hold
  refine .bind ?_ fun _ _ _ => .inl rfl
  refine .loop (I := fun _ q => ∃ fs f bs b, At cfg w₀ fs f bs b q)
    (fun rest q => rest.length + (cfg.crcSpans.length - q.1.crcIdx)) ?_ ?_ ⟨fs, f, bs, b, hAt⟩
    (Nat.lt_succ_of_le (Nat.add_le_add_left (Nat.sub_le _ _) _))
  · rintro rest q ⟨fs, f, bs, b, hAt⟩
    exact writeStep_returnsOr rest hAt
  · rintro rest q rest' q' ⟨fs, f, bs, b, hAt⟩ hstep
    refine ⟨?_, writeStep_next hstep⟩
    obtain ⟨chunk, fs', f', -, -, hAt' | ⟨hAt', -, -⟩⟩ := writeStep_ok hAt hstep
    · exact ⟨_, _, _, _, hAt'⟩
    · exact ⟨_, _, _, _, hAt'⟩

/-- The end of the stream comes back, unless a span leads to no entry. -/
theorem finish_returnsOr (hold : Holds cfg w₀ d p) :
    Run.ReturnsOr (MissingEntry cfg) ((finish os cfg).run p) := by
  obtain ⟨fs, f, bs, b, hAt, -, -, rfl⟩ := hold
  refine .bind (.mapErr (advanceFullFiles_returnsOr hAt)) fun _ p₁ _ => ?_
  rw [Run.bind_of_ok (Run.mapErr_of_ok (self_run p₁))]
  exact .of_ends (.ite (.throw _) (.pure _)) p₁

/-- Writes that all succeed have been taken one behind the other. -/
theorem holds_writeBuffers {bufs : List (List UInt8)} (hold : Holds cfg w₀ d p)
    (h : (Run.forEach (writeBuffer os cfg) bufs).run p = (.ok (), p')) :
    Holds cfg w₀ (d ++ bufs.flatten) p' :=
  holds_forEach (fun _ _ _ _ hold h => holds_writeUnit hold h) hold h

/-- **The loop of `write`.**  After any successful writes of a new sink, at the head
of every pass of one more `write`, over `rest` of its buffer: the counters agree with
the bytes taken so far, there is room for the subtractions, and the pass
takes a byte, passes a block, ends the loop or fails.  So `write` comes back, as
does `finish`, unless a file span belongs to no entry. -/
theorem write_iterations {w : World} {bufs : List (List UInt8)}
    (h : (Run.forEach (writeBuffer os cfg) bufs).run (.new, w) = (.ok (), p)) (buf : List UInt8) :
    (∀ rest q, Relation.ReflTransGen (Run.NextPass (writeStep os cfg)) (buf, p) (rest, q) →
      ∃ taken, buf = taken ++ rest ∧ Coupled cfg (bufs.flatten ++ taken) q.1 ∧
        (∀ q', (advanceFullFiles os cfg).run q = (.ok (), q') → HasRoom cfg q'.1) ∧
        PassResult cfg rest q ((writeStep os cfg rest).run q)) ∧
    Run.ReturnsOr (MissingEntry cfg) ((write os cfg buf).run p) ∧
    Run.ReturnsOr (MissingEntry cfg) ((finish os cfg).run p) := by
  have hold : Holds cfg w bufs.flatten p := holds_writeBuffers (holds_new w) h
  refine ⟨fun rest q hpasses => ?_, write_returnsOr buf hold, finish_returnsOr hold⟩
  have hstart : Taking cfg w buf bufs.flatten p := by
    obtain ⟨fs, f, bs, b, hAt, hpart, hsettled, hd⟩ := hold
    exact ⟨fs, f, bs, b, hAt, hpart, fun _ => hsettled rfl, hd⟩
  obtain ⟨taken, hbuf, htaking⟩ := Run.nextPass_invariant
    (I := fun rest q => ∃ taken, buf = taken ++ rest ∧
      Taking cfg w rest (bufs.flatten ++ taken) q) (fun rest q rest' q' hI hstep => by
        obtain ⟨taken, rfl, hq⟩ := hI
        obtain ⟨chunk, rfl, hq'⟩ := hq.writeStep hstep
        exact ⟨taken ++ chunk, by rw [List.append_assoc], by rwa [← List.append_assoc]⟩)
    hpasses ⟨[], rfl, by rwa [List.append_nil]⟩
  refine ⟨taken, hbuf, htaking.coupled, fun q' hadv => ?_, writeStep_result htaking⟩
  obtain ⟨fs, f, bs, b, hAt, -, -, -⟩ := htaking
  obtain ⟨fs', f', hAt', -⟩ := advanceFullFiles_ok hAt hadv
  exact hAt'.hasRoom

/-- One byte written, and two more that run into a block that is not as declared. -/
theorem write_iterations_sample :
    ∃ p, (Run.forEach (writeBuffer .obliging cutSample) [[0x61]]).run (.new, []) = (.ok (), p) ∧
      Coupled cutSample [0x61] p.1 ∧
      Run.ReturnsOr (MissingEntry cutSample) ((write .obliging cutSample [0x62, 0x63]).run p) := by
  let p := ((Run.forEach (writeBuffer .obliging cutSample) [[0x61]]).run (.new, [])).2
  have hrun : (Run.forEach (writeBuffer .obliging cutSample) [[0x61]]).run (.new, []) =
      (.ok (), p) := Prod.ext (by decide +kernel) rfl
  obtain ⟨hpasses, hwrite, -⟩ := write_iterations hrun [0x62, 0x63]
  obtain ⟨taken, htaken, hcoupled, -⟩ := hpasses _ p .refl
  obtain rfl : taken = [] := by simpa using htaken
  exact ⟨p, hrun, hcoupled, hwrite⟩

end SolidSink

end Unegg
