import Unegg.Coder.Streams
import Unegg.SolidSink
import Unegg.Tiling

/-!
# Unegg.SolidSink.Tilings

What the sink has done when its calls have succeeded.

The bytes it has taken are cut twice, into files and into blocks (`At`): every
whole file has gone to its output, every whole block had its checksum, and the
hasher has seen the part of the next block.  `writeStep_ok` carries this over
one pass of the loop of `write`; `sink_simulates` over a whole run of a
decompressor, and `finish_ok` tells what is left when the sink is finished.
-/

namespace Unegg

open Prog Crc32 Tiling

/-- Where the bytes of an entry go. -/
def outputTarget (destDir : Path) (pipeMode : Bool) (filter : Option (List String))
    (entry : EggFileEntry) : Option Target :=
  if shouldExtract entry filter then
    if pipeMode then some .stdout
    else (safeJoin destDir entry.fileName).toOption.map .file
  else none

namespace SinkConfig

variable (cfg : SinkConfig)

abbrev target (entry : EggFileEntry) : Option Target :=
  outputTarget cfg.destDir cfg.pipeMode cfg.filter entry

/-- The outputs of the first file spans, when their contents are `fs`. -/
def outputsOf (fs : List (List UInt8)) : List (Target × List UInt8) :=
  ((cfg.fileSpans.map fun span => cfg.entries[span.1]?).zip fs).filterMap fun (entry, f) =>
    (entry.bind cfg.target).map (·, f)

variable {cfg}

theorem zip_concat {α β : Type} (as : List α) (bs : List β) (b : β) :
    as.zip (bs ++ [b]) = as.zip bs ++ (as[bs.length]?.map (·, b)).toList := by
  induction bs generalizing as with
  | nil => cases as <;> simp
  | cons c bs ih =>
      cases as with
      | nil => simp
      | cons a as => simp [ih]

@[simp] theorem outputsOf_nil : cfg.outputsOf [] = [] := by simp [outputsOf]

theorem outputsOf_concat (fs : List (List UInt8)) (f : List UInt8) :
    cfg.outputsOf (fs ++ [f]) =
      cfg.outputsOf fs ++ (((cfg.entryAt fs.length).bind cfg.target).map (·, f)).toList := by
  rw [outputsOf, outputsOf, zip_concat, List.filterMap_append, List.getElem?_map, entryAt]
  cases hspan : cfg.fileSpans[fs.length]? with
  | none => simp
  | some span =>
      cases h : cfg.entries[span.1]?.bind cfg.target with
      | none =>
          simp only [Option.map_some, Option.toList_some, List.filterMap, Option.bind_some, h]
          rfl
      | some t =>
          simp only [Option.map_some, Option.toList_some, List.filterMap, Option.bind_some, h]

end SinkConfig

namespace SolidSink

section

variable (cfg : SinkConfig) (w₀ : World)

/-- Where the sink stands after the bytes `fs.flatten ++ f`: the files `fs` and
the blocks `bs` are whole, `f` and `b` are what there is of the next ones. -/
structure At (fs : List (List UInt8)) (f : List UInt8) (bs : List (List UInt8)) (b : List UInt8)
    (p : SolidSink × World) : Prop where
  flat : fs.flatten ++ f = bs.flatten ++ b
  files : Cut (cfg.fileSpans.map Prod.snd) fs f
  fileIdx : p.1.fileIdx = fs.length
  fileWritten : p.1.fileWritten = f.length
  blocks : Cut (cfg.crcSpans.map Prod.fst) bs b
  crcIdx : p.1.crcIdx = bs.length
  crcWritten : p.1.crcWritten = b.length
  hasher : p.1.hasher = Hasher.new.update b
  verified : bs.map crc32 = (cfg.crcSpans.map Prod.snd).take bs.length
  closed : p.1.fileOpen = false →
    f = [] ∧ p.1.writer = none ∧ Wrote w₀ p.2 (cfg.outputsOf fs)
  opened : p.1.fileOpen = true →
    fs.length < cfg.fileSpans.length ∧ p.1.writer = (cfg.entryAt fs.length).bind cfg.target ∧
      Wrote w₀ p.2 (cfg.outputsOf (fs ++ [f]))

/-- The last block that was made whole has bytes, or the next one has. -/
def Settled (bs : List (List UInt8)) (b : List UInt8) : Prop := b ≠ [] ∨ ∀ c ∈ bs.getLast?, c ≠ []

/-- The sink has taken `d`, and `rest` of a buffer is still to come. -/
def Taking (rest d : List UInt8) (p : SolidSink × World) : Prop :=
  ∃ fs f bs b, At cfg w₀ fs f bs b p ∧ (b = [] ∨ Wanting (cfg.crcSpans.map Prod.fst) bs b) ∧
    (rest = [] → Settled bs b) ∧ bs.flatten ++ b = d

/-- The sink has taken `d`. -/
abbrev Holds (d : List UInt8) (p : SolidSink × World) : Prop := Taking cfg w₀ [] d p

end

variable {os : Os} {cfg : SinkConfig} {w₀ : World} {fs bs : List (List UInt8)}
  {f b d : List UInt8} {p p' : SolidSink × World}

/-- A new sink has taken nothing. -/
theorem holds_new (w : World) : Holds cfg w [] (.new, w) := by
  refine ⟨[], [], [], [], ?_, .inl rfl, fun _ => .inr (by simp), rfl⟩
  exact {
    flat := rfl
    files := .start
    fileIdx := rfl
    fileWritten := rfl
    blocks := .start
    crcIdx := rfl
    crcWritten := rfl
    hasher := rfl
    verified := rfl
    closed := fun _ => ⟨rfl, rfl, by rw [SinkConfig.outputsOf_nil]; exact .start⟩
    opened := fun h => by simp [new] at h }

/-! ## files -/

/-- Opening an output that is wanted. -/
theorem openOutput_ok {entry : EggFileEntry} {outs : List (Target × List UInt8)}
    (hsel : shouldExtract entry cfg.filter) (hw : Wrote w₀ p.2 outs)
    (h : (openOutput os cfg entry).run p = (.ok (), p')) :
    ∃ t created, cfg.target entry = some t ∧ p'.1 = { p.1 with writer := some t, created } ∧
      Wrote w₀ p'.2 (outs ++ [(t, [])]) := by
  rw [openOutput] at h
  split at h
  · next hpipe =>
      rw [Run.bind_ok] at h
      obtain ⟨_, p₁, hcall, h⟩ := h
      obtain ⟨w₁, hnote, rfl⟩ := call_ok.mp hcall
      simp only [Os.note, Run.modify_run, Prod.mk.injEq, true_and] at hnote
      simp only [modify_run, Prod.mk.injEq, true_and] at h
      subst hnote h
      exact ⟨.stdout, p.1.created, by simp [outputTarget, hsel, hpipe], rfl, .stdout hw⟩
  · next hpipe =>
      rw [Run.bind_ok] at h
      obtain ⟨path, p₁, hjoin, h⟩ := h
      rw [Run.ofExcept_ok] at hjoin
      obtain ⟨hjoin, rfl⟩ := hjoin
      have hpath : safeJoin cfg.destDir entry.fileName = .ok path := by
        cases hs : safeJoin cfg.destDir entry.fileName with
        | error e => simp [hs, Except.mapError] at hjoin
        | ok q =>
            simp only [hs, Except.mapError, Except.ok.injEq] at hjoin
            rw [hjoin]
      rw [Run.bind_ok] at h
      obtain ⟨_, p₂, hcall, h⟩ := h
      obtain ⟨w₂, hmk, rfl⟩ := call_ok.mp hcall
      rw [Run.bind_ok] at h
      obtain ⟨_, p₃, hcall, h⟩ := h
      obtain ⟨w₃, hcreate, rfl⟩ := call_ok.mp hcall
      simp only [modify_run, Prod.mk.injEq, true_and] at h
      subst h
      refine ⟨.file path, p.1.created ++ [path], ?_, rfl, (hw.createParent hmk).createFile hcreate⟩
      simp [outputTarget, hsel, hpipe, hpath, Except.toOption]

theorem ensureFileOpen_ok (hAt : At cfg w₀ fs f bs b p)
    (h : (ensureFileOpen os cfg).run p = (.ok (), p')) :
    At cfg w₀ fs f bs b p' ∧ p'.1.fileOpen = true := by
  rw [ensureFileOpen, Run.bind_of_ok (self_run p)] at h
  split at h
  · next hopen =>
      simp only [Run.pure_run, Prod.mk.injEq, true_and] at h
      exact ⟨h ▸ hAt, h ▸ hopen⟩
  · next hopen =>
      rw [Bool.not_eq_true] at hopen
      obtain ⟨hf, hwriter, hw⟩ := hAt.closed hopen
      have hidx : cfg.entryAt p.1.fileIdx = cfg.entryAt fs.length := by rw [hAt.fileIdx]
      rw [Run.bind_of_ok (modify_run _ p), hidx] at h
      cases hentry : cfg.entryAt fs.length with
      | none => simp [hentry] at h
      | some entry =>
          have hlt : fs.length < cfg.fileSpans.length := by
            by_contra hge
            simp [SinkConfig.entryAt, List.getElem?_eq_none (not_lt.mp hge)] at hentry
          simp only [hentry] at h
          split at h
          · next hsel =>
              obtain ⟨t, created, ht, hs', hw'⟩ := openOutput_ok hsel (by exact hw) h
              obtain ⟨s', w'⟩ := p'
              simp only at hs' hw'
              subst hs'
              refine ⟨{ hAt with closed := ?_, opened := ?_ }, rfl⟩
              · intro hclosed
                simp at hclosed
              · intro _
                refine ⟨hlt, by simp [hentry, ht], ?_⟩
                simpa [SinkConfig.outputsOf_concat, hentry, ht, hf] using hw'
          · next hsel =>
              simp only [Run.pure_run, Prod.mk.injEq, true_and] at h
              subst h
              refine ⟨{ hAt with closed := ?_, opened := ?_ }, rfl⟩
              · intro hclosed
                simp at hclosed
              · intro _
                have ht : cfg.target entry = none := by simp [outputTarget, hsel]
                refine ⟨hlt, by simp [hwriter, hentry, ht], ?_⟩
                simpa [SinkConfig.outputsOf_concat, hentry, ht] using hw

/-- A file of full size is closed. -/
theorem At.closeFile (hAt : At cfg w₀ fs f bs b p) (hopen : p.1.fileOpen = true)
    (hsize : (cfg.fileSpans.map Prod.snd)[fs.length]? = some f.length)
    (h : (closeFile).run p = (.ok (), p')) : At cfg w₀ (fs ++ [f]) [] bs b p' := by
  simp only [SolidSink.closeFile, modify_run, Prod.mk.injEq, true_and] at h
  subst h
  exact {
    flat := by rw [List.flatten_append, List.flatten_singleton, List.append_nil, hAt.flat]
    files := hAt.files.close hsize
    fileIdx := by simp [hAt.fileIdx]
    fileWritten := rfl
    blocks := hAt.blocks
    crcIdx := hAt.crcIdx
    crcWritten := hAt.crcWritten
    hasher := hAt.hasher
    verified := hAt.verified
    closed := fun _ => ⟨rfl, rfl, (hAt.opened hopen).2.2⟩
    opened := fun h => by simp at h }

theorem advanceStep_ok {u : Unit} {r : Prog.Flow Unit Unit} (hAt : At cfg w₀ fs f bs b p)
    (h : (advanceStep os cfg u).run p = (.ok r, p')) :
    (r = .done () ∧ p' = p ∧ Wanting (cfg.fileSpans.map Prod.snd) fs f) ∨
      (r = .next () ∧ At cfg w₀ (fs ++ [f]) [] bs b p') := by
  rw [advanceStep, Run.bind_of_ok (self_run p)] at h
  cases hspan : cfg.fileSpans[p.1.fileIdx]? with
  | none =>
      simp only [hspan, Run.pure_run, Prod.mk.injEq, Outcome.ok.injEq] at h
      refine .inl ⟨h.1.symm, h.2.symm, ?_⟩
      intro n hn
      rw [← hAt.fileIdx, List.getElem?_map, hspan] at hn
      simp at hn
  | some span =>
      have hsize : (cfg.fileSpans.map Prod.snd)[fs.length]? = some span.2 := by
        rw [← hAt.fileIdx, List.getElem?_map, hspan]
        rfl
      simp only [hspan] at h
      split at h
      · next hlt =>
          simp only [Run.pure_run, Prod.mk.injEq, Outcome.ok.injEq] at h
          refine .inl ⟨h.1.symm, h.2.symm, ?_⟩
          intro n hn
          rw [hsize, Option.some.injEq] at hn
          rw [← hn, ← hAt.fileWritten]
          exact hlt
      · next hge =>
          have hfull : f.length = span.2 := by
            have hle := hAt.files.part_le _ hsize
            rw [hAt.fileWritten] at hge
            omega
          rw [Run.bind_ok] at h
          obtain ⟨_, p₁, hopen, h⟩ := h
          obtain ⟨hAt₁, hopen₁⟩ := ensureFileOpen_ok hAt hopen
          rw [Run.bind_ok] at h
          obtain ⟨_, p₂, hclose, h⟩ := h
          simp only [Run.pure_run, Prod.mk.injEq, Outcome.ok.injEq] at h
          obtain ⟨rfl, rfl⟩ := h
          exact .inr ⟨rfl, hAt₁.closeFile hopen₁ (by rw [hsize, hfull]) hclose⟩

/-- A pass that goes on leaves fewer files to come. -/
theorem At.advanceStep_next {u u' : Unit} (hAt : At cfg w₀ fs f bs b p)
    (h : (advanceStep os cfg u).run p = (.ok (.next u'), p')) :
    At cfg w₀ (fs ++ [f]) [] bs b p' ∧
      cfg.fileSpans.length - p'.1.fileIdx < cfg.fileSpans.length - p.1.fileIdx := by
  rcases advanceStep_ok hAt h with ⟨hr, -⟩ | ⟨-, hAt'⟩
  · cases hr
  have hle := hAt'.files.length_le
  have hidx := hAt.fileIdx
  have hidx' := hAt'.fileIdx
  rw [List.length_append, List.length_singleton] at hle hidx'
  rw [List.length_map] at hle
  exact ⟨hAt', by omega⟩

/-- After the full files have been closed, the same bytes have been taken and
the next file wants more. -/
theorem advanceFullFiles_ok (hAt : At cfg w₀ fs f bs b p)
    (h : (advanceFullFiles os cfg).run p = (.ok (), p')) :
    ∃ fs' f', At cfg w₀ fs' f' bs b p' ∧ Wanting (cfg.fileSpans.map Prod.snd) fs' f' := by
  refine Run.loop_invariant (I := fun _ p => ∃ fs f, At cfg w₀ fs f bs b p)
    (Q := fun _ p => ∃ fs f, At cfg w₀ fs f bs b p ∧ Wanting (cfg.fileSpans.map Prod.snd) fs f) ?_ ?_ ⟨fs, f, hAt⟩ h
  · rintro u q u' q' ⟨fs, f, hAt⟩ hstep
    rcases advanceStep_ok hAt hstep with ⟨hr, -⟩ | ⟨-, hAt'⟩
    · simp at hr
    · exact ⟨_, _, hAt'⟩
  · rintro u q c q' ⟨fs, f, hAt⟩ hstep
    rcases advanceStep_ok hAt hstep with ⟨-, rfl, hwant⟩ | ⟨hr, -⟩
    · exact ⟨fs, f, hAt, hwant⟩
    · simp at hr

/-! ## blocks -/

/-- A chunk that fits the file and the block. -/
theorem writeChunk_ok {chunk : List UInt8} {fileSize crcSize : Nat}
    (hAt : At cfg w₀ fs f bs b p) (hopen : p.1.fileOpen = true)
    (hfile : (cfg.fileSpans.map Prod.snd)[fs.length]? = some fileSize)
    (hcrc : (cfg.crcSpans.map Prod.fst)[bs.length]? = some crcSize)
    (hffit : f.length + chunk.length ≤ fileSize) (hbfit : b.length + chunk.length ≤ crcSize)
    (h : (writeChunk os chunk).run p = (.ok (), p')) :
    At cfg w₀ fs (f ++ chunk) bs (b ++ chunk) p' := by
  obtain ⟨hlt, hwriter, hwrote⟩ := hAt.opened hopen
  rw [writeChunk, Run.bind_of_ok (modify_run _ p), Run.bind_of_ok (self_run _)] at h
  have hdone : ∀ w', Wrote w₀ w' (cfg.outputsOf (fs ++ [f ++ chunk])) →
      At cfg w₀ fs (f ++ chunk) bs (b ++ chunk) ({ p.1 with
        hasher := p.1.hasher.update chunk
        fileWritten := p.1.fileWritten + chunk.length
        crcWritten := p.1.crcWritten + chunk.length }, w') := by
    intro w' hw'
    exact {
      flat := by rw [← List.append_assoc, ← List.append_assoc, hAt.flat]
      files := hAt.files.grow hfile hffit
      fileIdx := hAt.fileIdx
      fileWritten := by simp [hAt.fileWritten]
      blocks := hAt.blocks.grow hcrc hbfit
      crcIdx := hAt.crcIdx
      crcWritten := by simp [hAt.crcWritten]
      hasher := by simp [hAt.hasher]
      verified := hAt.verified
      closed := fun h => by simp [hopen] at h
      opened := fun _ => ⟨hlt, hwriter, hw'⟩ }
  rw [Run.bind_ok] at h
  obtain ⟨_, p₁, hcall, h⟩ := h
  obtain ⟨w₁, hwrite, rfl⟩ := call_ok.mp hcall
  simp only [modify_run, Prod.mk.injEq, true_and] at h
  subst h
  refine hdone _ ?_
  rw [SinkConfig.outputsOf_concat] at hwrote ⊢
  rw [← hwriter] at hwrote ⊢
  exact hwrote.writeTo hwrite

/-- A block of full size is whole when its checksum is right. -/
theorem finishBlock_ok {crcSize : Nat} {crc : UInt32} (hAt : At cfg w₀ fs f bs b p)
    (hcrc : cfg.crcSpans[bs.length]? = some (crcSize, crc))
    (h : (finishBlock crcSize crc).run p = (.ok (), p')) :
    (b.length = crcSize ∧ At cfg w₀ fs f (bs ++ [b]) [] p') ∨ (b.length ≠ crcSize ∧ p' = p) := by
  rw [finishBlock, Run.bind_of_ok (self_run p)] at h
  split at h
  · next hfull =>
      rw [hAt.crcWritten] at hfull
      rw [Run.bind_of_ok (modify_run _ p)] at h
      split at h
      · simp at h
      · next hsum =>
          simp only [modify_run, Prod.mk.injEq, true_and] at h
          subst h
          rw [not_not, hAt.hasher] at hsum
          refine .inl ⟨hfull, ?_⟩
          exact {
            flat := by rw [List.flatten_append, List.flatten_singleton, List.append_nil, hAt.flat]
            files := hAt.files
            fileIdx := hAt.fileIdx
            fileWritten := hAt.fileWritten
            blocks := hAt.blocks.close (by rw [List.getElem?_map, hcrc, hfull]; rfl)
            crcIdx := by simp [hAt.crcIdx]
            crcWritten := rfl
            hasher := rfl
            verified := by
              rw [List.map_append, hAt.verified, List.length_append, List.length_singleton,
                List.take_add_one, List.getElem?_map, hcrc, ← hsum]
              rfl
            closed := hAt.closed
            opened := hAt.opened }
  · next hne =>
      rw [hAt.crcWritten] at hne
      simp only [Run.pure_run, Prod.mk.injEq, true_and] at h
      exact .inr ⟨hne, h.symm⟩

/-! ## writes -/

/-- **One pass of `write`** that succeeds and goes on has taken a piece of the
buffer, and made a block whole or taken a byte. -/
theorem writeStep_ok {rest rest' : List UInt8} (hAt : At cfg w₀ fs f bs b p)
    (h : (writeStep os cfg rest).run p = (.ok (.next rest'), p')) :
    ∃ chunk fs' f', rest = chunk ++ rest' ∧ rest ≠ [] ∧
      (At cfg w₀ fs' f' (bs ++ [b ++ chunk]) [] p' ∨
        At cfg w₀ fs' f' bs (b ++ chunk) p' ∧ chunk ≠ [] ∧
          Wanting (cfg.crcSpans.map Prod.fst) bs (b ++ chunk)) := by
  rw [writeStep] at h
  split at h
  · simp at h
  next hne =>
    rw [Run.bind_ok] at h
    obtain ⟨_, p₁, hadv, h⟩ := h
    obtain ⟨fs, f, hAt, hwant⟩ := advanceFullFiles_ok hAt hadv
    rw [Run.bind_of_ok (self_run p₁)] at h
    cases hspan : cfg.fileSpans[p₁.1.fileIdx]? with
    | none => simp [hspan] at h
    | some span =>
        simp only [hspan] at h
        cases hblock : cfg.crcSpans[p₁.1.crcIdx]? with
        | none => simp [hblock] at h
        | some block =>
            simp only [hblock] at h
            rw [Run.bind_ok] at h
            obtain ⟨_, p₂, hensure, h⟩ := h
            obtain ⟨hAt₂, hopen⟩ := ensureFileOpen_ok hAt hensure
            rw [hAt.fileIdx] at hspan
            rw [hAt.crcIdx] at hblock
            have hfile : (cfg.fileSpans.map Prod.snd)[fs.length]? = some span.2 := by
              rw [List.getElem?_map, hspan]
              rfl
            have hcrc : (cfg.crcSpans.map Prod.fst)[bs.length]? = some block.1 := by
              rw [List.getElem?_map, hblock]
              rfl
            split at h
            · simp at h
            · next hnowrap =>
                rw [hAt.fileWritten, hAt.crcWritten] at h hnowrap
                rw [Run.bind_ok] at h
                obtain ⟨_, p₃, hchunk, h⟩ := h
                rw [Run.bind_ok] at h
                obtain ⟨_, p₄, hfinish, h⟩ := h
                simp only [Run.pure_run, Prod.mk.injEq, Outcome.ok.injEq, Flow.next.injEq] at h
                obtain ⟨rfl, rfl⟩ := h
                generalize htake : min (min rest.length (min (span.2 - f.length) rest.length))
                  (min (block.1 - b.length) rest.length) = n at hchunk
                have hlen : (rest.take n).length = n := by
                  rw [List.length_take]
                  omega
                have hAt₃ := writeChunk_ok hAt₂ hopen hfile hcrc (by omega) (by omega) hchunk
                refine ⟨rest.take n, fs, f ++ rest.take n, (List.take_append_drop n rest).symm, hne,
                  ?_⟩
                rcases finishBlock_ok hAt₃ hblock hfinish with ⟨-, hAt₄⟩ | ⟨hpart, rfl⟩
                · exact .inl hAt₄
                · have hfwant := hwant _ hfile
                  have hble := hAt.blocks.part_le _ hcrc
                  have hrest := List.length_pos_of_ne_nil hne
                  rw [List.length_append, hlen] at hpart
                  refine .inr ⟨hAt₃, List.ne_nil_of_length_pos (by omega), fun m hm => ?_⟩
                  rw [hcrc, Option.some.injEq] at hm
                  rw [List.length_append]
                  omega

/-- What one pass of `write` does to the bytes taken. -/
theorem Taking.writeStep {rest rest' : List UInt8} (hold : Taking cfg w₀ rest d p)
    (h : (writeStep os cfg rest).run p = (.ok (.next rest'), p')) :
    ∃ chunk, rest = chunk ++ rest' ∧ Taking cfg w₀ rest' (d ++ chunk) p' := by
  obtain ⟨fs, f, bs, b, hAt, -, -, rfl⟩ := hold
  obtain ⟨chunk, fs', f', rfl, hne, hAt' | ⟨hAt', hchunk, hwant⟩⟩ := writeStep_ok hAt h
  · refine ⟨chunk, rfl, _, _, _, _, hAt', .inl rfl, fun hrest => .inr ?_, by simp⟩
    rw [hrest, List.append_nil] at hne
    simp [hne]
  · exact ⟨chunk, rfl, _, _, _, _, hAt', .inr hwant, fun _ => .inl (by simp [hchunk]), by simp⟩

theorem writeStep_done {rest : List UInt8} {u : Unit}
    (h : (writeStep os cfg rest).run p = (.ok (.done u), p')) : rest = [] ∧ p' = p := by
  rw [writeStep] at h
  split at h
  · next hnil =>
      simp only [Run.pure_run, Prod.mk.injEq] at h
      exact ⟨hnil, h.2.symm⟩
  · exfalso
    rw [Run.bind_ok] at h
    obtain ⟨_, p₁, _, h⟩ := h
    rw [Run.bind_of_ok (self_run p₁)] at h
    split at h
    · simp at h
    · split at h
      · simp at h
      · rw [Run.bind_ok] at h
        obtain ⟨_, p₂, _, h⟩ := h
        split at h
        · simp at h
        · rw [Run.bind_ok] at h
          obtain ⟨_, p₃, _, h⟩ := h
          rw [Run.bind_ok] at h
          obtain ⟨_, p₄, _, h⟩ := h
          simp at h

/-- A `write` that succeeds has taken the buffer. -/
theorem holds_write {buf : List UInt8} {n : Nat} (hold : Holds cfg w₀ d p)
    (h : (write os cfg buf).run p = (.ok n, p')) : Holds cfg w₀ (d ++ buf) p' := by
  have hstart : Taking cfg w₀ buf d p := by
    obtain ⟨fs, f, bs, b, hAt, hpart, hsettled, hd⟩ := hold
    exact ⟨fs, f, bs, b, hAt, hpart, fun _ => hsettled rfl, hd⟩
  refine Run.loop_invariant (I := fun rest p => ∃ taken, buf = taken ++ rest ∧
    Taking cfg w₀ rest (d ++ taken) p) (Q := fun _ p => Holds cfg w₀ (d ++ buf) p) ?_ ?_
    ⟨[], rfl, by rwa [List.append_nil]⟩ (write_ok os cfg h).1
  · rintro rest q rest' q' ⟨taken, rfl, hq⟩ hstep
    obtain ⟨chunk, rfl, hq'⟩ := hq.writeStep hstep
    exact ⟨taken ++ chunk, by rw [List.append_assoc], by rwa [← List.append_assoc]⟩
  · rintro rest q u q' ⟨taken, rfl, hq⟩ hstep
    obtain ⟨rfl, rfl⟩ := writeStep_done hstep
    rwa [List.append_nil]

theorem holds_flush (hold : Holds cfg w₀ d p) (h : (flush os).run p = (.ok (), p')) :
    Holds cfg w₀ d p' := by
  rw [flush, Run.bind_of_ok (self_run p)] at h
  split at h
  · next t _ =>
      obtain ⟨w, hflush, rfl⟩ := call_ok.mp h
      simp only [Os.sink] at hflush
      split at hflush
      · simp only [Prod.mk.injEq] at hflush
        rwa [← hflush.2]
      · simp at hflush
  · simp only [Run.pure_run, Prod.mk.injEq] at h
    rwa [← h.2]

/-- Where the sink succeeds, it takes what a recorder takes. -/
theorem sink_simulates : Coder.Simulates (sink os cfg) ByteSink.recorder
    fun p d => Holds cfg w₀ d p := by
  refine Coder.simulates_recorder (I := fun d p => Holds cfg w₀ d p) ?_ ?_
  · intro buf d q n q' hq hwrite
    rw [(write_ok os cfg hwrite).2, List.take_length]
    exact holds_write hq hwrite
  · exact fun _ _ _ hq hflush => holds_flush hq hflush

/-- **A finished sink** has cut everything into the declared files and blocks. -/
theorem finish_ok (hold : Holds cfg w₀ d p) (h : (finish os cfg).run p = (.ok (), p')) :
    ∃ fs bs : List (List UInt8), d = fs.flatten ∧ d = bs.flatten ∧
      fs.map List.length = cfg.fileSpans.map Prod.snd ∧
      bs.map (fun b => (b.length, crc32 b)) = cfg.crcSpans ∧
      (∀ c ∈ bs.getLast?, c ≠ []) ∧ Wrote w₀ p'.2 (cfg.outputsOf fs) := by
  obtain ⟨fs, f, bs, b, hAt, -, hsettled, rfl⟩ := hold
  rw [finish, Run.bind_ok] at h
  obtain ⟨_, p₁, hadv, h⟩ := h
  obtain ⟨fs, f, hAt, -⟩ := advanceFullFiles_ok hAt (Run.mapErr_ok.mp hadv)
  rw [Run.bind_of_ok (Run.mapErr_of_ok (self_run p₁))] at h
  split at h
  · simp at h
  · next hend =>
      simp only [Run.pure_run, Prod.mk.injEq, true_and] at h
      subst h
      rw [hAt.fileIdx, hAt.crcIdx, hAt.crcWritten] at hend
      push Not at hend
      obtain ⟨hfiles, hblocks, hb⟩ := hend
      rw [List.length_eq_zero_iff] at hb
      subst hb
      have hclosed : p₁.1.fileOpen = false := by
        by_contra hopen
        have := (hAt.opened (by simpa using hopen)).1
        omega
      obtain ⟨rfl, -, hwrote⟩ := hAt.closed hclosed
      refine ⟨fs, bs, ?_, by rw [List.append_nil], ?_, ?_, ?_, hwrote⟩
      · rw [← hAt.flat, List.append_nil]
      · exact hAt.files.lengths (by rw [List.length_map]; exact hfiles)
      · have hsizes := hAt.blocks.lengths (by rw [List.length_map]; exact hblocks)
        have hsums := hAt.verified
        rw [hblocks, ← List.length_map (f := Prod.snd) , List.take_length] at hsums
        rw [← List.zip_map', hsizes, hsums, List.zip_map', List.map_id'']
        simp
      · exact (hsettled rfl).resolve_left (fun h => h rfl)

end SolidSink

end Unegg
