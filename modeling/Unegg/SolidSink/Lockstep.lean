import Unegg.Coder.Lockstep
import Unegg.Extract

/-!
# Unegg.SolidSink.Lockstep

Two sinks that are fed the same bytes.

A relation between the states of two sinks is kept by whole runs into them when
it fixes the counters, and when opening an output, closing it, writing to it and
passing a block keep it (`Lockstep`).  The runs then end alike
(`Lockstep.decompressInto`).
-/

namespace Unegg

open Prog Run

namespace SolidSink

variable (os : Os) (cfg : SinkConfig)

/-- Open the output of a file span. -/
def openAt (i : Nat) : Method Unit :=
  match cfg.entryAt i with
  | none => Run.panic
  | some entry => if shouldExtract entry cfg.filter then openOutput os cfg entry else return ()

/-- The counters of two sinks, but for the index of the block. -/
structure SameCounters (s s' : SolidSink) : Prop where
  fileIdx : s'.fileIdx = s.fileIdx
  fileWritten : s'.fileWritten = s.fileWritten
  fileOpen : s'.fileOpen = s.fileOpen
  crcWritten : s'.crcWritten = s.crcWritten
  hasher : s'.hasher = s.hasher

namespace SameCounters

theorem refl (s : SolidSink) : SameCounters s s := ⟨rfl, rfl, rfl, rfl, rfl⟩

theorem trans {s t u : SolidSink} (h : SameCounters s t) (h' : SameCounters t u) :
    SameCounters s u where
  fileIdx := h'.fileIdx.trans h.fileIdx
  fileWritten := h'.fileWritten.trans h.fileWritten
  fileOpen := h'.fileOpen.trans h.fileOpen
  crcWritten := h'.crcWritten.trans h.crcWritten
  hasher := h'.hasher.trans h.hasher

end SameCounters

/-- The sink with its file marked as open. -/
def opening (s : SolidSink) : SolidSink := { s with fileOpen := true }

/-- The sink with its file closed. -/
def closing (s : SolidSink) : SolidSink :=
  { s with writer := none, fileIdx := s.fileIdx + 1, fileWritten := 0, fileOpen := false }

/-- The sink with a new checksum. -/
def rehashing (s : SolidSink) : SolidSink := { s with hasher := .new }

/-- The sink with the next block begun. -/
def passing (s : SolidSink) : SolidSink := { s with crcIdx := s.crcIdx + 1, crcWritten := 0 }

/-- What is asked of a relation that two sinks are to keep. -/
structure Lockstep (cfg' : SinkConfig) (R : SolidSink × World → SolidSink × World → Prop) :
    Prop where
  fileSpans : cfg'.fileSpans = cfg.fileSpans
  counters : ∀ p q, R p q → SameCounters p.1 q.1
  crcSpan : ∀ p q, R p q → cfg'.crcSpans[q.1.crcIdx]? = cfg.crcSpans[p.1.crcIdx]?
  lastBlock : ∀ p q, R p q → (q.1.crcIdx = cfg'.crcSpans.length ↔ p.1.crcIdx = cfg.crcSpans.length)
  opens : ∀ p q, R p q → p.1.fileOpen = false → p.1.fileIdx < cfg.fileSpans.length →
    Alike (fun _ => R) R ((openAt os cfg p.1.fileIdx).run (opening p.1, p.2))
      ((openAt os cfg' p.1.fileIdx).run (opening q.1, q.2))
  closes : ∀ p q, R p q → p.1.fileOpen = true → R (closing p.1, p.2) (closing q.1, q.2)
  writes : ∀ p q chunk, R p q → p.1.fileOpen = true →
    Alike (fun _ => R) R ((writeChunk os chunk).run p) ((writeChunk os chunk).run q)
  rehashes : ∀ p q, R p q → R (rehashing p.1, p.2) (rehashing q.1, q.2)
  passes : ∀ p q, R p q → R (passing p.1, p.2) (passing q.1, q.2)
  flushes : ∀ p q, R p q → Alike (fun _ => R) R ((flush os).run p) ((flush os).run q)

variable {os cfg}

/-! ## the passes of `write` -/

/-- The block that is being written stays the same. -/
def SameBlock (p q : SolidSink × World) : Prop :=
  q.1.crcIdx = p.1.crcIdx ∧ q.1.crcWritten = p.1.crcWritten ∧ q.1.hasher = p.1.hasher

instance : Std.Refl SameBlock := ⟨fun _ => ⟨rfl, rfl, rfl⟩⟩

instance : IsTrans (SolidSink × World) SameBlock where
  trans _ _ _ h h' := ⟨h'.1.trans h.1, h'.2.1.trans h.2.1, h'.2.2.trans h.2.2⟩

/-- Nothing changes but the output. -/
def SameSpan (p q : SolidSink × World) : Prop := SameCounters p.1 q.1 ∧ q.1.crcIdx = p.1.crcIdx

instance : Std.Refl SameSpan := ⟨fun p => ⟨.refl p.1, rfl⟩⟩

instance : IsTrans (SolidSink × World) SameSpan where
  trans _ _ _ h h' := ⟨h.1.trans h'.1, h'.2.trans h.2⟩

theorem SameSpan.sameBlock {p q : SolidSink × World} (h : SameSpan p q) : SameBlock p q :=
  ⟨h.2, h.1.crcWritten, h.1.hasher⟩

/-- A call to the system leaves the counters. -/
theorem sameSpan_call {α : Type} (m : Run World IoError α) : Steps SameSpan (call m) :=
  fun p => ⟨.refl p.1, rfl⟩

/-- Opening an output touches nothing but the output. -/
theorem sameSpan_openOutput (entry : EggFileEntry) :
    Steps SameSpan (openOutput os cfg entry) := by
  rw [openOutput]
  split
  · exact .bind (sameSpan_call _) fun _ _ => ⟨⟨rfl, rfl, rfl, rfl, rfl⟩, rfl⟩
  · refine .bind (.ofExcept _) fun path => .bind (sameSpan_call _) fun _ => ?_
    exact .bind (sameSpan_call _) fun _ _ => ⟨⟨rfl, rfl, rfl, rfl, rfl⟩, rfl⟩

/-- Opening a file leaves them too. -/
theorem sameSpan_openAt (i : Nat) : Steps SameSpan (openAt os cfg i) := by
  rw [openAt]
  split
  · exact .panic
  · exact .ite (sameSpan_openOutput _) (.pure _)

/-- What `ensure_file_open` does to a file that is not open. -/
theorem ensureFileOpen_run (p : SolidSink × World) : (ensureFileOpen os cfg).run p =
    if p.1.fileOpen then (.ok (), p) else (openAt os cfg p.1.fileIdx).run (opening p.1, p.2) := by
  rw [ensureFileOpen, bind_of_ok (self_run p)]
  split
  · rfl
  · rfl

/-- Opening the file of the next byte leaves the block. -/
theorem sameBlock_ensureFileOpen : Steps SameBlock (ensureFileOpen os cfg) := by
  intro p
  rw [ensureFileOpen_run]
  split
  · exact ⟨rfl, rfl, rfl⟩
  · exact (sameSpan_openAt p.1.fileIdx (opening p.1, p.2)).sameBlock

/-- Behind `ensure_file_open` the same file is open, at the same place. -/
theorem ensureFileOpen_done {p p' : SolidSink × World}
    (h : (ensureFileOpen os cfg).run p = (.ok (), p')) :
    p'.1.fileOpen = true ∧ p'.1.fileIdx = p.1.fileIdx ∧ p'.1.fileWritten = p.1.fileWritten := by
  rw [ensureFileOpen_run] at h
  split at h
  · next hopen =>
      simp only [Prod.mk.injEq, true_and] at h
      rw [← h]
      exact ⟨hopen, rfl, rfl⟩
  · have hc := ((sameSpan_openAt _).of_run h).1
    exact ⟨hc.fileOpen, hc.fileIdx, hc.fileWritten⟩

/-- Passing full files leaves it too. -/
theorem sameBlock_advanceFullFiles : Steps SameBlock (advanceFullFiles os cfg) := by
  refine .loop (fun u => .bind (fun _ => ⟨rfl, rfl, rfl⟩) fun s => ?_) _ _
  split
  · exact .pure _
  · exact .ite (.pure _) (.bind sameBlock_ensureFileOpen fun _ =>
      .bind (fun _ => ⟨rfl, rfl, rfl⟩) fun _ => .pure _)

variable {p p' : SolidSink × World}

/-- Behind `advance_full_files` the current file span, if there is one, is not full. -/
theorem advanceFullFiles_done (h : (advanceFullFiles os cfg).run p = (.ok (), p')) :
    ∀ span ∈ cfg.fileSpans[p'.1.fileIdx]?, p'.1.fileWritten < span.2 := by
  refine loop_invariant (I := fun _ _ => True)
    (Q := fun _ q => ∀ span ∈ cfg.fileSpans[q.1.fileIdx]?, q.1.fileWritten < span.2)
    (fun _ _ _ _ _ _ => trivial) (fun u q c q' _ hstep => ?_) trivial h
  rw [advanceStep, bind_of_ok (self_run q)] at hstep
  cases hspan : cfg.fileSpans[q.1.fileIdx]? with
  | none =>
      simp only [hspan, pure_run, Prod.mk.injEq] at hstep
      simp [← hstep.2, hspan]
  | some span =>
      simp only [hspan] at hstep
      split at hstep
      · next hlt =>
          simp only [pure_run, Prod.mk.injEq] at hstep
          rw [← hstep.2, hspan]
          simpa using hlt
      · rw [bind_ok] at hstep
        obtain ⟨_, q₁, -, hstep⟩ := hstep
        rw [bind_ok] at hstep
        obtain ⟨_, q₂, -, hstep⟩ := hstep
        simp at hstep

/-- A chunk counts towards its block. -/
theorem writeChunk_crc {chunk : List UInt8} (h : (writeChunk os chunk).run p = (.ok (), p')) :
    p'.1.crcIdx = p.1.crcIdx ∧ p'.1.crcWritten = p.1.crcWritten + chunk.length := by
  rw [writeChunk, bind_of_ok (modify_run _ p), bind_of_ok (self_run _), bind_ok] at h
  obtain ⟨_, p₁, hcall, h⟩ := h
  obtain ⟨w₁, -, rfl⟩ := call_ok.mp hcall
  simp only [modify_run, Prod.mk.injEq, true_and] at h
  rw [← h]
  exact ⟨rfl, rfl⟩

/-- A block is left behind once it is full. -/
theorem finishBlock_crcIdx {crcSize : Nat} {crc : UInt32}
    (h : (finishBlock crcSize crc).run p = (.ok (), p')) :
    p'.1.crcIdx = if p.1.crcWritten = crcSize then p.1.crcIdx + 1 else p.1.crcIdx := by
  rw [finishBlock, bind_of_ok (self_run p)] at h
  split at h
  · next hfull =>
      rw [bind_of_ok (modify_run _ p)] at h
      split at h
      · simp at h
      · simp only [modify_run, Prod.mk.injEq, true_and] at h
        rw [← h, if_pos hfull]
  · next hne =>
      simp only [pure_run, Prod.mk.injEq, true_and] at h
      rw [← h, if_neg hne]

/-- **Each pass of `write` takes a byte or passes a block.** -/
theorem writeStep_next {rest rest' : List UInt8}
    (h : (writeStep os cfg rest).run p = (.ok (.next rest'), p')) :
    rest'.length + (cfg.crcSpans.length - p'.1.crcIdx) <
      rest.length + (cfg.crcSpans.length - p.1.crcIdx) := by
  rw [writeStep] at h
  split at h
  · simp at h
  next hne =>
    rw [bind_ok] at h
    obtain ⟨_, p₁, hadv, h⟩ := h
    have hroom := advanceFullFiles_done hadv
    obtain ⟨hidx₁, -, -⟩ := sameBlock_advanceFullFiles.of_run hadv
    rw [bind_of_ok (self_run p₁)] at h
    cases hspan : cfg.fileSpans[p₁.1.fileIdx]? with
    | none => simp [hspan] at h
    | some span =>
        simp only [hspan] at h
        have hfile := hroom span (by rw [hspan]; rfl)
        cases hblock : cfg.crcSpans[p₁.1.crcIdx]? with
        | none => simp [hblock] at h
        | some block =>
            simp only [hblock] at h
            have hblt := (List.getElem?_eq_some_iff.mp hblock).1
            rw [bind_ok] at h
            obtain ⟨_, p₂, hopen, h⟩ := h
            obtain ⟨hidx₂, hwritten₂, -⟩ := sameBlock_ensureFileOpen.of_run hopen
            split at h
            · simp at h
            next hle =>
              rw [bind_ok] at h
              obtain ⟨_, p₃, hchunk, h⟩ := h
              obtain ⟨hidx₃, hwritten₃⟩ := writeChunk_crc hchunk
              rw [bind_ok] at h
              obtain ⟨_, p₄, hfinish, h⟩ := h
              have hidx₄ := finishBlock_crcIdx hfinish
              simp only [pure_run, Prod.mk.injEq, Outcome.ok.injEq, Prog.Flow.next.injEq] at h
              obtain ⟨rfl, rfl⟩ := h
              have hpos := List.length_pos_of_ne_nil hne
              rw [List.length_take] at hwritten₃
              rw [List.length_drop]
              split at hidx₄ <;> omega

/-! ## runs in lockstep -/

/-- Sinks in step that are finished alike. -/
theorem decompressInto_alike {cfg' : SinkConfig}
    {R : SolidSink × World → SolidSink × World → Prop} {q : SolidSink × World}
    (hstep : Coder.InStep (sink os cfg) (sink os cfg') R)
    (hfinish : ∀ p q, R p q →
      Alike (fun _ => R) R ((finish os cfg).run p) ((finish os cfg').run q))
    (decode : Decode Unit) (stream : List UInt8) (hR : R p q) :
    Alike (fun _ => R) R ((decompressInto os cfg decode stream).run p)
      ((decompressInto os cfg' decode stream).run q) := by
  refine .bind ?_ fun _ _ _ hR => hfinish _ _ hR
  have hrun := hstep.run Prod.mk decode
    (⟨rfl, rfl, hR⟩ : Coder.SameIo R ⟨stream, (), p⟩ ⟨stream, (), q⟩)
  dsimp only
  generalize (decode.run Prod.mk (sink os cfg)).run ⟨stream, (), p⟩ = x at hrun
  generalize (decode.run Prod.mk (sink os cfg')).run ⟨stream, (), q⟩ = y at hrun
  cases hrun with
  | ok hio => exact .ok hio.out
  | err hio => exact .err hio.out
  | panic hio => exact .panic hio.out
  | hang hio => exact .hang hio.out

namespace Lockstep

variable {cfg' : SinkConfig} {R : SolidSink × World → SolidSink × World → Prop}
  {q : SolidSink × World} (h : Lockstep os cfg cfg' R)
include h

/-- In lockstep, both open the file of the next byte. -/
theorem ensureFileOpen (hR : R p q) (hlt : p.1.fileIdx < cfg.fileSpans.length) :
    Alike (fun _ p q => R p q ∧ p.1.fileOpen = true) R ((ensureFileOpen os cfg).run p)
      ((ensureFileOpen os cfg').run q) := by
  have hc := h.counters p q hR
  rw [ensureFileOpen_run, ensureFileOpen_run, hc.fileOpen, hc.fileIdx]
  split
  · next hopen => exact .ok ⟨hR, hopen⟩
  · next hclosed =>
      have hopened : ((openAt os cfg p.1.fileIdx).run (opening p.1, p.2)).2.1.fileOpen = true :=
        (sameSpan_openAt p.1.fileIdx (opening p.1, p.2)).1.fileOpen
      have halike := h.opens p q hR (by simpa using hclosed) hlt
      generalize (openAt os cfg p.1.fileIdx).run (opening p.1, p.2) = x at halike hopened
      generalize (openAt os cfg' p.1.fileIdx).run (opening q.1, q.2) = y at halike
      cases halike with
      | ok hR' => exact .ok ⟨hR', hopened⟩
      | err hR' => exact .err hR'
      | panic hR' => exact .panic hR'
      | hang hR' => exact .hang hR'

/-- Both pass the same full files. -/
theorem advanceFullFiles (hR : R p q) :
    Alike (fun _ => R) R ((advanceFullFiles os cfg).run p) ((advanceFullFiles os cfg').run q) := by
  rw [SolidSink.advanceFullFiles, SolidSink.advanceFullFiles, h.fileSpans]
  refine .loop (fun u p q hR => ?_) _ _ hR
  have hc := h.counters p q hR
  rw [advanceStep, advanceStep, bind_of_ok (self_run p), bind_of_ok (self_run q), h.fileSpans,
    hc.fileIdx]
  split
  · exact .ok hR
  · next hspan =>
      have hlt := (List.getElem?_eq_some_iff.mp hspan).1
      rw [hc.fileWritten]
      split
      · exact .ok hR
      · refine .bind (h.ensureFileOpen hR hlt) fun _ p₁ q₁ ⟨hR₁, hopen⟩ => ?_
        exact .ok (h.closes p₁ q₁ hR₁ hopen)

/-- Both finish the block, or neither. -/
theorem finishBlock (crcSize : Nat) (crc : UInt32) (hR : R p q) :
    Alike (fun _ => R) R ((finishBlock crcSize crc).run p) ((finishBlock crcSize crc).run q) := by
  have hc := h.counters p q hR
  rw [SolidSink.finishBlock, bind_of_ok (self_run p), bind_of_ok (self_run q), hc.crcWritten]
  split
  · rw [bind_of_ok (modify_run _ p), bind_of_ok (modify_run _ q), hc.hasher]
    have hnew := h.rehashes p q hR
    split
    · exact .err hnew
    · exact .ok (h.passes _ _ hnew)
  · exact .ok hR

/-- A pass keeps them in step. -/
theorem writeStep (rest : List UInt8) (hR : R p q) :
    Alike (fun _ => R) R ((writeStep os cfg rest).run p) ((writeStep os cfg' rest).run q) := by
  unfold SolidSink.writeStep
  split
  · exact .ok hR
  · refine .bind (h.advanceFullFiles hR) fun _ p₁ q₁ hR₁ => ?_
    have hc := h.counters p₁ q₁ hR₁
    rw [bind_of_ok (self_run p₁), bind_of_ok (self_run q₁), h.fileSpans, hc.fileIdx,
      h.crcSpan p₁ q₁ hR₁]
    split
    · exact .err hR₁
    next hspan =>
      have hlt := (List.getElem?_eq_some_iff.mp hspan).1
      split
      · exact .err hR₁
      · refine .bind (h.ensureFileOpen hR₁ hlt) fun _ p₂ q₂ ⟨hR₂, hopen⟩ => ?_
        rw [hc.fileWritten, hc.crcWritten]
        split
        · exact .panic hR₂
        · refine .bind (h.writes p₂ q₂ _ hR₂ hopen) fun _ p₃ q₃ hR₃ => ?_
          exact .bind (h.finishBlock _ _ hR₃) fun _ p₄ q₄ hR₄ => .ok hR₄

/-- What is left of a buffer is taken alike, within any bounds that suffice. -/
theorem writeLoop {rest : List UInt8} {n m : Nat} (hR : R p q)
    (hn : rest.length + (cfg.crcSpans.length - p.1.crcIdx) < n)
    (hm : rest.length + (cfg'.crcSpans.length - q.1.crcIdx) < m) :
    Alike (fun _ => R) R ((loop (SolidSink.writeStep os cfg) n rest).run p)
      ((loop (SolidSink.writeStep os cfg') m rest).run q) := by
  rw [loop_bound (fun rest p => rest.length + (cfg.crcSpans.length - p.1.crcIdx))
      (fun _ _ _ _ hstep => writeStep_next hstep) hn (Nat.lt_add_right m hn),
    loop_bound (fun rest p => rest.length + (cfg'.crcSpans.length - p.1.crcIdx))
      (fun _ _ _ _ hstep => writeStep_next hstep) hm (Nat.lt_add_left n hm)]
  exact .loop (fun rest p q hR => h.writeStep rest hR) _ _ hR

/-- A whole write keeps the sinks in step. -/
theorem write (buf : List UInt8) (hR : R p q) :
    Alike (fun _ => R) R ((write os cfg buf).run p) ((write os cfg' buf).run q) := by
  refine .bind (h.writeLoop hR ?_ ?_) fun _ _ _ hR => .ok hR
  · omega
  · omega

theorem inStep : Coder.InStep (sink os cfg) (sink os cfg') R :=
  .of_write (fun buf _ _ hR => h.write buf hR) h.flushes

/-- The end of the stream keeps the sinks in step. -/
theorem finish (hR : R p q) :
    Alike (fun _ => R) R ((finish os cfg).run p) ((finish os cfg').run q) := by
  refine .bind ((h.advanceFullFiles hR).mapErr _) fun _ p₁ q₁ hR₁ => ?_
  have hc := h.counters p₁ q₁ hR₁
  rw [bind_of_ok (mapErr_of_ok (self_run p₁)), bind_of_ok (mapErr_of_ok (self_run q₁)),
    h.fileSpans, hc.fileIdx, hc.crcWritten]
  simp only [ne_eq, h.lastBlock p₁ q₁ hR₁]
  split
  · exact .err hR₁
  · exact .ok hR₁

/-- **Whole runs of a decompressor end alike.** -/
theorem decompressInto (decode : Decode Unit) (stream : List UInt8) (hR : R p q) :
    Alike (fun _ => R) R ((decompressInto os cfg decode stream).run p)
      ((decompressInto os cfg' decode stream).run q) :=
  decompressInto_alike h.inStep (fun _ _ hR => h.finish hR) decode stream hR

end Lockstep

end SolidSink

end Unegg
