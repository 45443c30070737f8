import Unegg.Effects.Made
import Unegg.SolidSink.Complete
import Unegg.SolidSink.Lockstep

/-!
# Unegg.SolidSink.Together

Two sinks with the same spans, in different modes or with different filters.

When every call succeeds, each of them makes its own outputs, and both cut what
they are given into the same files (`together_decompressInto`), whether or not
the bytes fit the blocks.
-/

namespace Unegg

open Prog Run Crc32

namespace SolidSink

variable {os : Os} {cfg cfg' : SinkConfig} {w₀ w₀' : World} {fs : List (List UInt8)}
  {f : List UInt8} {p q : SolidSink × World}

/-- The whole files `fs` and the part `f` of the next one have been made. -/
structure FilesAt (cfg : SinkConfig) (w₀ : World) (fs : List (List UInt8)) (f : List UInt8)
    (p : SolidSink × World) : Prop where
  fileIdx : p.1.fileIdx = fs.length
  closed : p.1.fileOpen = false →
    f = [] ∧ p.1.writer = none ∧ Made w₀ p.2 (cfg.outputsOf fs)
  opened : p.1.fileOpen = true →
    fs.length < cfg.fileSpans.length ∧ p.1.writer = (cfg.entryAt fs.length).bind cfg.target ∧
      Made w₀ p.2 (cfg.outputsOf (fs ++ [f]))

theorem filesAt_new (w : World) : FilesAt cfg w [] [] (.new, w) where
  fileIdx := rfl
  closed := fun _ => ⟨rfl, rfl, by rw [SinkConfig.outputsOf_nil]; exact .start⟩
  opened := fun h => by simp [new] at h

/-! ## one sink -/

/-- The output of an entry is made. -/
theorem openOutput_made (hos : os.Succeeds) {entry : EggFileEntry}
    {outs : List (Target × List UInt8)} (hname : SafeName entry.fileName)
    (hsel : shouldExtract entry cfg.filter) (hp : Made w₀ p.2 outs) :
    ∃ t p', cfg.target entry = some t ∧ (openOutput os cfg entry).run p = (.ok (), p') ∧
      p'.1.writer = some t ∧ Made w₀ p'.2 (outs ++ [(t, [])]) := by
  rw [openOutput]
  split
  · next hpipe =>
      exact ⟨.stdout, _, by simp [outputTarget, hsel, hpipe], rfl, rfl, hp.stdout⟩
  · next hpipe =>
      obtain ⟨path, hjoin⟩ : ∃ path, safeJoin cfg.destDir entry.fileName = .ok path :=
        ⟨_, safeJoin_ok.mpr ⟨hname, rfl⟩⟩
      obtain ⟨w₁, w₂, h₁, h₂, hmade⟩ := hp.create hos path
      have htarget : cfg.target entry = some (.file path) := by
        simp [outputTarget, hsel, hpipe, hjoin, Except.toOption]
      let s : SolidSink :=
        { p.1 with created := p.1.created ++ [path], writer := some (.file path) }
      refine ⟨.file path, (s, w₂), htarget, ?_, rfl, hmade⟩
      rw [hjoin, Except.mapError, Run.ofExcept, pure_bind, bind_of_ok (call_of_ok h₁),
        bind_of_ok (call_of_ok h₂)]
      rfl

theorem FilesAt.openAt (hos : os.Succeeds) (hcfg : cfg.Checked) (h : FilesAt cfg w₀ fs f p)
    (hopen : p.1.fileOpen = false) (hlt : p.1.fileIdx < cfg.fileSpans.length) :
    ∃ p', (openAt os cfg p.1.fileIdx).run (opening p.1, p.2) = (.ok (), p') ∧
      FilesAt cfg w₀ fs f p' := by
  obtain ⟨rfl, hwriter, hmade⟩ := h.closed hopen
  obtain ⟨entry, hentry, hname⟩ := hcfg _ hlt
  have hidx : cfg.entryAt fs.length = some entry := by rw [← h.fileIdx, hentry]
  suffices hrun : ∃ p', (SolidSink.openAt os cfg p.1.fileIdx).run (opening p.1, p.2) =
      (.ok (), p') ∧ p'.1.writer = (cfg.entryAt fs.length).bind cfg.target ∧
      Made w₀ p'.2 (cfg.outputsOf (fs ++ [[]])) by
    obtain ⟨p', hp', hwriter', hmade'⟩ := hrun
    obtain ⟨hc, -⟩ := (sameSpan_openAt _).of_run hp'
    refine ⟨p', hp', hc.fileIdx.trans h.fileIdx, fun hclosed => ?_, fun _ => ?_⟩
    · have hopened : p'.1.fileOpen = true := hc.fileOpen
      rw [hopened] at hclosed
      simp at hclosed
    · exact ⟨h.fileIdx ▸ hlt, hwriter', hmade'⟩
  rw [SolidSink.openAt, hentry, hidx, SinkConfig.outputsOf_concat, hidx]
  simp only
  split
  · next hsel =>
      obtain ⟨t, p', ht, hrun, hwriter', hmade'⟩ :=
        openOutput_made (p := (opening p.1, p.2)) hos hname hsel hmade
      exact ⟨p', hrun, by simp [hwriter', ht], by simpa [ht] using hmade'⟩
  · next hsel =>
      have ht : cfg.target entry = none := by simp [outputTarget, hsel]
      exact ⟨_, rfl, by simp [opening, hwriter, ht], by simpa [ht] using hmade⟩

theorem FilesAt.closing (h : FilesAt cfg w₀ fs f p) (hopen : p.1.fileOpen = true) :
    FilesAt cfg w₀ (fs ++ [f]) [] (closing p.1, p.2) where
  fileIdx := by simp [SolidSink.closing, h.fileIdx]
  closed := fun _ => ⟨rfl, rfl, (h.opened hopen).2.2⟩
  opened := fun hopened => by simp [SolidSink.closing] at hopened

/-- Changes to the counters of the block leave the files as they are. -/
theorem FilesAt.keep {s : SolidSink} (h : FilesAt cfg w₀ fs f p) (hidx : s.fileIdx = p.1.fileIdx)
    (hopen : s.fileOpen = p.1.fileOpen) (hwriter : s.writer = p.1.writer) :
    FilesAt cfg w₀ fs f (s, p.2) where
  fileIdx := hidx.trans h.fileIdx
  closed := fun hclosed => by
    rw [hwriter]
    exact h.closed (hopen ▸ hclosed)
  opened := fun hopened => by
    rw [hwriter]
    exact h.opened (hopen ▸ hopened)

/-- The sink with a chunk counted in. -/
def counting (s : SolidSink) (chunk : List UInt8) : SolidSink :=
  { s with
    hasher := s.hasher.update chunk
    fileWritten := s.fileWritten + chunk.length
    crcWritten := s.crcWritten + chunk.length }

theorem FilesAt.writeChunk (hos : os.Succeeds) (h : FilesAt cfg w₀ fs f p)
    (hopen : p.1.fileOpen = true) (chunk : List UInt8) :
    ∃ w, (writeChunk os chunk).run p = (.ok (), (counting p.1 chunk, w)) ∧
      FilesAt cfg w₀ fs (f ++ chunk) (counting p.1 chunk, w) := by
  obtain ⟨hlt, hwriter, hmade⟩ := h.opened hopen
  rw [SinkConfig.outputsOf_concat, ← hwriter] at hmade
  obtain ⟨w, hrun, hmade'⟩ := hmade.writeTo hos chunk
  refine ⟨w, ?_, h.fileIdx, fun hclosed => ?_, fun _ => ⟨hlt, hwriter, ?_⟩⟩
  · rw [SolidSink.writeChunk, bind_of_ok (modify_run _ p), bind_of_ok (self_run _),
      bind_of_ok (call_of_ok (by exact hrun))]
    rfl
  · have hopened : p.1.fileOpen = false := hclosed
    rw [hopen] at hopened
    simp at hopened
  · rw [SinkConfig.outputsOf_concat, ← hwriter]
    exact hmade'

theorem flush_run (hos : os.Succeeds) (p : SolidSink × World) :
    (flush os).run p = (.ok (), p) := by
  rw [flush, bind_of_ok (self_run p)]
  split
  · next t _ =>
      have hflush : (os.sink t).flush.run p.2 = (.ok (), p.2) := by
        simp only [Os.sink, hos.flush]
      exact call_of_ok hflush
  · rfl

/-- A sink that is finished has closed all its files. -/
theorem decompressInto_done {decode : Decode Unit} {stream : List UInt8}
    (h : (decompressInto os cfg decode stream).run p = (.ok (), q)) :
    q.1.fileIdx = cfg.fileSpans.length := by
  rw [decompressInto, bind_ok] at h
  obtain ⟨_, p₁, -, h⟩ := h
  rw [finish, bind_ok] at h
  obtain ⟨_, p₂, -, h⟩ := h
  rw [bind_of_ok (mapErr_of_ok (self_run p₂))] at h
  split at h
  · simp at h
  · next hdone =>
      simp only [pure_run, Prod.mk.injEq, true_and] at h
      rw [← h]
      by_contra hne
      exact hdone (.inl hne)

/-! ## two sinks -/

/-- The same files have been made, each in its own way. -/
structure Together (cfg cfg' : SinkConfig) (w₀ w₀' : World) (p q : SolidSink × World) :
    Prop where
  counters : SameCounters p.1 q.1
  crcIdx : q.1.crcIdx = p.1.crcIdx
  files : ∃ fs f, FilesAt cfg w₀ fs f p ∧ FilesAt cfg' w₀' fs f q

theorem together_new (w w' : World) : Together cfg cfg' w w' (.new, w) (.new, w') where
  counters := .refl _
  crcIdx := rfl
  files := ⟨[], [], filesAt_new w, filesAt_new w'⟩

section Together

variable (hos : os.Succeeds) (hcfg : cfg.Checked) (hcfg' : cfg'.Checked)
  (hfiles : cfg'.fileSpans = cfg.fileSpans) (hcrcs : cfg'.crcSpans = cfg.crcSpans)
include hos hcfg hcfg' hfiles hcrcs

theorem lockstep_together : Lockstep os cfg cfg' (Together cfg cfg' w₀ w₀') where
  fileSpans := hfiles
  counters := fun _ _ h => h.counters
  crcSpan := fun _ _ h => by rw [hcrcs, h.crcIdx]
  lastBlock := fun _ _ h => by rw [hcrcs, h.crcIdx]
  opens := by
    rintro p q ⟨hc, hidx, fs, f, hp, hq⟩ hopen hlt
    obtain ⟨p', hrun, hp'⟩ := hp.openAt hos hcfg hopen hlt
    obtain ⟨q', hrun', hq'⟩ := hq.openAt hos hcfg' (hc.fileOpen.trans hopen)
      (by rwa [hc.fileIdx, hfiles])
    obtain ⟨hcp, hip⟩ := (sameSpan_openAt _).of_run hrun
    obtain ⟨hcq, hiq⟩ := (sameSpan_openAt _).of_run hrun'
    rw [hc.fileIdx] at hrun'
    rw [hrun, hrun']
    refine .ok ⟨⟨?_, ?_, ?_, ?_, ?_⟩, ?_, fs, f, hp', hq'⟩
    · rw [hcq.fileIdx, hcp.fileIdx]
      exact hc.fileIdx
    · rw [hcq.fileWritten, hcp.fileWritten]
      exact hc.fileWritten
    · rw [hcq.fileOpen, hcp.fileOpen]
      rfl
    · rw [hcq.crcWritten, hcp.crcWritten]
      exact hc.crcWritten
    · rw [hcq.hasher, hcp.hasher]
      exact hc.hasher
    · rw [hiq, hip]
      exact hidx
  closes := by
    rintro p q ⟨hc, hidx, fs, f, hp, hq⟩ hopen
    refine ⟨⟨?_, rfl, rfl, hc.crcWritten, hc.hasher⟩, hidx, fs ++ [f], [], hp.closing hopen,
      hq.closing (hc.fileOpen.trans hopen)⟩
    simp only [closing, hc.fileIdx]
  writes := by
    rintro p q chunk ⟨hc, hidx, fs, f, hp, hq⟩ hopen
    obtain ⟨w, hrun, hp'⟩ := hp.writeChunk hos hopen chunk
    obtain ⟨w', hrun', hq'⟩ := hq.writeChunk hos (hc.fileOpen.trans hopen) chunk
    rw [hrun, hrun']
    refine .ok ⟨⟨hc.fileIdx, ?_, hc.fileOpen, ?_, ?_⟩, hidx, fs, f ++ chunk, hp', hq'⟩
    · simp only [counting, hc.fileWritten]
    · simp only [counting, hc.crcWritten]
    · simp only [counting, hc.hasher]
  rehashes := by
    rintro p q ⟨hc, hidx, fs, f, hp, hq⟩
    exact ⟨⟨hc.fileIdx, hc.fileWritten, hc.fileOpen, hc.crcWritten, rfl⟩, hidx, fs, f,
      hp.keep rfl rfl rfl, hq.keep rfl rfl rfl⟩
  passes := by
    rintro p q ⟨hc, hidx, fs, f, hp, hq⟩
    refine ⟨⟨hc.fileIdx, hc.fileWritten, hc.fileOpen, rfl, hc.hasher⟩, ?_, fs, f,
      hp.keep rfl rfl rfl, hq.keep rfl rfl rfl⟩
    simp only [passing, hidx]
  flushes := by
    intro p q h
    rw [flush_run hos, flush_run hos]
    exact .ok h

/-- **The same files, each in its own way**, are made of any stream. -/
theorem together_decompressInto (decode : Decode Unit) (stream : List UInt8) (w w' : World) :
    Alike (fun _ p q => ∃ fs : List (List UInt8), fs.length = cfg.fileSpans.length ∧
        Made w p.2 (cfg.outputsOf fs) ∧ Made w' q.2 (cfg'.outputsOf fs)) (fun _ _ => True)
      ((decompressInto os cfg decode stream).run (.new, w))
      ((decompressInto os cfg' decode stream).run (.new, w')) := by
  have halike := (lockstep_together hos hcfg hcfg' hfiles hcrcs).decompressInto decode stream
    (together_new w w')
  refine (halike.and_left (P := fun _ p => p.1.fileIdx = cfg.fileSpans.length)
    fun u hok => decompressInto_done (Prod.ext hok rfl)).mono ?_ fun _ _ _ => trivial
  rintro u p q ⟨⟨hc, -, fs, f, hp, hq⟩, hdone⟩
  have hlen : fs.length = cfg.fileSpans.length := hp.fileIdx.symm.trans hdone
  have hclosed : p.1.fileOpen = false := by
    by_contra hopen
    have hlt := (hp.opened (by simpa using hopen)).1
    omega
  exact ⟨fs, hlen, (hp.closed hclosed).2.2, (hq.closed (hc.fileOpen.trans hclosed)).2.2⟩

end Together

end SolidSink

end Unegg
