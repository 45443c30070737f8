import Unegg.Extract.Solid

/-!
# Unegg.Extract.Codec

The codec of a solid stream as a parameter.

`extractAllSolidAs` is the extraction of a solid archive with a method that is
given instead of read off a block.  With decompressors that fail at once the
error of a run tells the method, so two methods give the same runs for all
decompressors if and only if they are one or no codec is reached
(`extractAllSolidAs_eq_iff`).
-/

namespace Unegg

open Prog

variable {crates : Crates} {os : Os} {archive : EggArchive} {entries : List EggFileEntry}
  {destDir : Path} {password : Option String} {pipeMode : Bool} {filter : Option (List String)}
  {w w' : World}

/-! ## a codec that is given -/

section As

variable (method : CompressionMethod) (crates : Crates) (os : Os) (archive : EggArchive)
  (entries : List EggFileEntry) (destDir : Path) (password : Option String) (pipeMode : Bool)
  (filter : Option (List String))

/-- The sink of a solid stream. -/
def solidConfig (spans : Spans) : SinkConfig where
  fileSpans := spans.fileSpans
  crcSpans := spans.crcSpans
  entries
  destDir
  filter
  pipeMode

/-- Decode a stream into the files. -/
def decodeStream (spans : Spans) (stream : List UInt8) : Extract Unit := do
  let total := (spans.crcSpans.map Prod.fst).sum % 2 ^ 64
  let decode := decompressSolid crates method stream.length total
  match ← withSink (decompressInto os (solidConfig entries destDir pipeMode filter spans) decode
    stream) with
  | (.error e, s) =>
    discardCreated pipeMode s
    Run.throw e
  | (.ok _, _) => return ()

def extractSpansAs (spans : Spans) : Extract Unit :=
  if spans.blockReads ≠ [] then do
    let stream ← onReader archive (readBlocks crates entries password spans.blockReads .empty)
    decodeStream method crates os entries destDir pipeMode filter spans stream
  else if pipeMode then return ()
  else createEmptyFiles os entries destDir filter spans

/-- The extraction of a solid archive with the codec of `method`. -/
def extractAllSolidAs : Extract Unit := do
  let spans ← scanEntries os destDir pipeMode filter entries.zipIdx .empty
  extractSpansAs method crates os archive entries destDir password pipeMode filter spans
  applyTimes entries destDir pipeMode filter

theorem extractAllSolid_eq :
    extractAllSolid crates os archive entries destDir password pipeMode filter =
      extractAllSolidAs (solidMethod entries) crates os archive entries destDir password pipeMode
        filter := rfl

end As

/-! ## codecs that give themselves away -/

/-- The decompressors among the crates, with the bound of their loops. -/
structure Codecs where
  inflate : Inflate
  bzip2 : BzDecoder
  lzma : List UInt8 → Nat → Coder IoError String Unit
  azo : Nat → Nat → Bool → Coder IoError String UInt32
  fuel : Nat

def Crates.withCodecs (crates : Crates) (codecs : Codecs) : Crates :=
  { crates with
    inflate := codecs.inflate
    bzip2 := codecs.bzip2
    lzma := codecs.lzma
    azo := codecs.azo
    fuel := codecs.fuel }

/-- The stream is put together without them. -/
theorem readBlocks_withCodecs (codecs : Codecs) (brs : List BlockRead) (g : Gathered) :
    readBlocks (crates.withCodecs codecs) entries password brs g =
      readBlocks crates entries password brs g := by
  induction brs generalizing g with
  | nil => rfl
  | cons br brs ih =>
      have hblock : readBlock (crates.withCodecs codecs) entries password g br =
          readBlock crates entries password g br := rfl
      rw [readBlocks, readBlocks, hblock]
      simp only [ih]

/-- Decompressors that fail at once. -/
def Codecs.failing : Codecs where
  inflate := {
    State := Unit
    new := ()
    decompress := fun _ _ _ => .error ""
    consumed_le := by simp
    produced_le := by simp }
  bzip2 := ⟨Unit, (), fun s _ => .ret (.error "", s)⟩
  lzma _ _ := .fail ""
  azo _ _ _ := .fail ""
  fuel := 1

/-- The method whose codec an error comes from. -/
def EggError.codec : EggError → Option CompressionMethod
  | .inflateFailed _ => some .deflate
  | .bzip2Failed _ => some .bzip2
  | .lzmaFailed _ => some .lzma
  | .azoFailed _ => some .azo
  | .unknownCompressionMethod n => some (.unknown n)
  | _ => none

/-- A codec that fails leaves its name. -/
theorem failing_run {σ : Type} (crates : Crates) (v : ByteSink IoError σ) {method : CompressionMethod}
    (hm : method ≠ .store) (stream : List UInt8) (maxOutput : Nat) (out : σ) :
    ∃ e io, ((decompressSolid (crates.withCodecs .failing) method stream.length maxOutput).run Prod.mk
      v).run ⟨stream, (), out⟩ = (.err e, io) ∧ e.codec = some method := by
  cases method with
  | store => exact absurd rfl hm
  | deflate =>
      by_cases hs : stream = []
      · subst hs
        exact ⟨_, _, rfl, rfl⟩
      · have hpos := List.length_pos_of_ne_nil hs
        have hread : ¬ (stream.take (min stream.length 4096)).length < min stream.length 4096 := by
          simp
        refine ⟨.inflateFailed "", ⟨stream.drop (min stream.length 4096), (), out⟩, ?_, rfl⟩
        simp only [decompressSolid, extractDeflate, Crates.withCodecs, Codecs.failing, Coder.loop,
          Coder.run_bind, deflateStep, refill, Run.bind_run, hpos, and_self, if_true,
          Decode.readExact, Decode.decrypt, Coder.run, if_neg hread]
        rfl
  | bzip2 => exact ⟨_, _, rfl, rfl⟩
  | lzma =>
      by_cases hs : stream.length < 9
      · refine ⟨.lzmaFailed "block too small for LZMA header", ⟨stream, (), out⟩, ?_, rfl⟩
        simp [decompressSolid, extractLzma, hs, Coder.run_bind, Run.bind_run, Coder.run]
      · have hheader : ¬ (stream.take 9).length < 9 := by
          rw [List.length_take]
          omega
        have hdata : ((stream.drop 9).take (stream.length - 9)).length = stream.length - 9 := by
          simp
        refine ⟨.lzmaFailed "", ⟨(stream.drop 9).drop (stream.length - 9), (), out⟩, ?_, rfl⟩
        simp only [decompressSolid, extractLzma, if_neg hs, Coder.run_bind, Run.bind_run,
          Decode.readExact, Decode.decrypt, Decode.readUpTo, Coder.run, if_neg hheader,
          Run.pure_run, if_neg (not_not.mpr hdata)]
        rfl
  | azo => exact ⟨_, _, rfl, rfl⟩
  | unknown n => exact ⟨_, _, rfl, rfl⟩

/-- The copy of a stored stream fails as its writer does. -/
theorem ioCopy_error {σ δ : Type} {dec : List UInt8 → δ → List UInt8 × δ} {v : ByteSink IoError σ}
    {n : Nat} {io io' : Io δ σ} {e : EggError}
    (h : ((ioCopy n).run dec v).run io = (.err e, io')) : ∃ x, e = .io x := by
  induction n generalizing io with
  | zero => simp [ioCopy, Coder.run] at h
  | succ n ih =>
      simp only [ioCopy, Coder.run] at h
      split at h
      · simp [Coder.run] at h
      · simp only [Coder.run] at h
        rcases hw : (v.writeAllCounted (io.rest.take 8192)).run io.out with
          ⟨⟨m, _ | x⟩ | x | _ | _, s⟩
        case err => exact x.elim
        all_goals simp only [hw, Coder.run] at h
        · exact ih h
        · simp only [Run.throw_run, Prod.mk.injEq, Outcome.err.injEq] at h
          exact ⟨x, h.1.symm⟩
        all_goals simp at h

/-! ## how a stream ends -/

/-- What a run of the sink that is over comes to: what it created is removed
when it failed. -/
def afterStream (pipeMode : Bool) :
    Outcome EggError Unit × (SolidSink × World) → Outcome EggError Unit × World
  | (.err e, (s, w)) => (.err e, if pipeMode then w else w ++ s.created.map Event.remove)
  | (o, (_, w)) => (o, w)

theorem cleanup_run (s : SolidSink) (w : World) :
    (SolidSink.cleanup s).run w = (.ok (), w ++ s.created.map Event.remove) := by
  rw [SolidSink.cleanup]
  induction s.created generalizing w with
  | nil => simp [Run.forEach]
  | cons path paths ih =>
      have hfirst : (Os.note (.remove path) : Run World EggError Unit).run w =
          (.ok (), w ++ [.remove path]) := rfl
      rw [Run.forEach, Run.bind_of_ok hfirst, ih, List.append_assoc]
      rfl

theorem decodeStream_run (method : CompressionMethod) (spans : Spans) (stream : List UInt8)
    (w : World) :
    (decodeStream method crates os entries destDir pipeMode filter spans stream).run w =
      afterStream pipeMode ((decompressInto os
        (solidConfig entries destDir pipeMode filter spans)
        (decompressSolid crates method stream.length ((spans.crcSpans.map Prod.fst).sum % 2 ^ 64))
        stream).run (.new, w)) := by
  rw [decodeStream, Run.bind_run, withSink, Run.attempt]
  rcases hrun : (decompressInto os (solidConfig entries destDir pipeMode filter spans)
    (decompressSolid crates method stream.length ((spans.crcSpans.map Prod.fst).sum % 2 ^ 64))
    stream).run (.new, w) with ⟨u | e | _ | _, s, w₁⟩
  all_goals simp only [hrun, afterStream]
  case err =>
    cases pipeMode with
    | true => rfl
    | false =>
        rw [discardCreated, if_neg (by simp), Run.bind_of_ok (cleanup_run s w₁)]
        rfl
  all_goals rfl

/-! ## which codec it was -/

theorem finish_error {cfg : SinkConfig} {p p' : SolidSink × World} {e : EggError}
    (h : (SolidSink.finish os cfg).run p = (.err e, p')) : e.codec = none := by
  rw [SolidSink.finish, Run.bind_err] at h
  rcases h with h | ⟨_, p₁, -, h⟩
  · obtain ⟨x, -, rfl⟩ := Run.mapErr_err.mp h
    rfl
  · rw [Run.bind_of_ok (Run.mapErr_of_ok (SolidSink.self_run p₁))] at h
    split at h
    · simp only [Run.throw_run, Prod.mk.injEq, Outcome.err.injEq] at h
      rw [← h.1]
      rfl
    · simp at h

theorem safeJoin_codec {name : String} {e : EggError} (h : safeJoin destDir name = .error e) :
    e.codec = none := by
  rcases safeJoin_error h with rfl | rfl
  · rfl
  · rfl

theorem applyTimes_error {e : EggError}
    (h : (applyTimes entries destDir pipeMode filter).run w = (.err e, w')) : e.codec = none := by
  rw [applyTimes] at h
  split at h
  · simp at h
  · obtain ⟨entry, -, w₁, w₂, h⟩ := Run.forEach_err h
    rw [applyTime] at h
    split at h
    · simp at h
    · split at h
      · simp at h
      · rw [Run.bind_err] at h
        rcases h with h | ⟨path, w₃, -, h⟩
        · cases hjoin : safeJoin destDir entry.fileName with
          | ok path => simp [hjoin, Run.ofExcept] at h
          | error e' =>
              simp only [hjoin, Run.ofExcept, Run.throw_run, Prod.mk.injEq, Outcome.err.injEq] at h
              exact h.1 ▸ safeJoin_codec hjoin
        · rw [setFileTime] at h
          split at h
          · simp at h
          · simp [Os.note] at h

/-- The run gets as far as a codec: all names and directories were all right
and the stream could be put together. -/
structure Decodes (crates : Crates) (os : Os) (archive : EggArchive) (entries : List EggFileEntry)
    (destDir : Path) (password : Option String) (pipeMode : Bool) (filter : Option (List String))
    (w : World) (spans : Spans) (w₁ : World) (stream : List UInt8) : Prop where
  scan : (scanEntries os destDir pipeMode filter entries.zipIdx .empty).run w = (.ok spans, w₁)
  blocks : spans.blockReads ≠ []
  read : ((readBlocks crates entries password spans.blockReads .empty).run archive.reader).1 =
    .ok stream

namespace Decodes

variable {spans : Spans} {w₁ : World} {stream : List UInt8} {method method' : CompressionMethod}

theorem withCodecs (codecs : Codecs) (h : Decodes crates os archive entries destDir password
    pipeMode filter w spans w₁ stream) : Decodes (crates.withCodecs codecs) os archive entries
      destDir password pipeMode filter w spans w₁ stream where
  scan := h.scan
  blocks := h.blocks
  read := by rw [readBlocks_withCodecs, h.read]

theorem run (h : Decodes crates os archive entries destDir password pipeMode filter w spans w₁
      stream) (method : CompressionMethod) :
    (extractAllSolidAs method crates os archive entries destDir password pipeMode filter).run w =
      (decodeStream method crates os entries destDir pipeMode filter spans stream >>= fun _ =>
        applyTimes entries destDir pipeMode filter).run w₁ := by
  have hread : (onReader archive (readBlocks crates entries password spans.blockReads .empty)).run
      w₁ = (.ok stream, w₁) := by
    simp only [onReader, h.read]
  rw [extractAllSolidAs, Run.bind_of_ok h.scan, extractSpansAs, if_pos h.blocks, bind_assoc,
    Run.bind_of_ok hread]

/-- A codec that fails is told from its error. -/
theorem failing_codec (h : Decodes crates os archive entries destDir password pipeMode filter w
      spans w₁ stream) (hm : method ≠ .store) :
    ∃ e, ((extractAllSolidAs method (crates.withCodecs .failing) os archive entries destDir password
      pipeMode filter).run w).1 = .err e ∧ e.codec = some method := by
  obtain ⟨e, io, hfail, he⟩ := failing_run crates (SolidSink.sink os
    (solidConfig entries destDir pipeMode filter spans)) hm stream
    ((spans.crcSpans.map Prod.fst).sum % 2 ^ 64) (SolidSink.new, w₁)
  have hinto : (decompressInto os (solidConfig entries destDir pipeMode filter spans)
      (decompressSolid (crates.withCodecs .failing) method stream.length
        ((spans.crcSpans.map Prod.fst).sum % 2 ^ 64)) stream).run (.new, w₁) = (.err e, io.out) := by
    rw [decompressInto, Run.bind_of_err]
    simp only [hfail]
  refine ⟨e, ?_, he⟩
  rw [(h.withCodecs .failing).run, Run.bind_run, decodeStream_run, hinto]
  rfl

/-- The stored method has no codec to fail. -/
theorem store_codec (h : Decodes crates os archive entries destDir password pipeMode filter w
      spans w₁ stream) {e : EggError}
    (he : ((extractAllSolidAs .store crates os archive entries destDir password pipeMode
      filter).run w).1 = .err e) : e.codec = none := by
  have hrun : (extractAllSolidAs .store crates os archive entries destDir password pipeMode
      filter).run w = (.err e, _) := Prod.ext he rfl
  rw [h.run, Run.bind_err] at hrun
  rcases hrun with hrun | ⟨_, w₂, -, hrun⟩
  · rw [decodeStream_run] at hrun
    rcases hinto : (decompressInto os (solidConfig entries destDir pipeMode filter spans)
      (decompressSolid crates .store stream.length ((spans.crcSpans.map Prod.fst).sum % 2 ^ 64))
      stream).run (.new, w₁) with ⟨u | e' | _ | _, s, w₂⟩
    all_goals simp only [hinto, afterStream, Prod.mk.injEq, reduceCtorEq, false_and] at hrun
    obtain ⟨heq, -⟩ := hrun
    obtain rfl := Outcome.err.inj heq
    rw [decompressInto, Run.bind_err] at hinto
    rcases hinto with hinto | ⟨_, p, -, hfinish⟩
    · simp only [Prod.mk.injEq] at hinto
      obtain ⟨x, rfl⟩ := ioCopy_error (Prod.ext hinto.1 rfl)
      rfl
    · exact finish_error hfinish
  · exact applyTimes_error hrun

/-- **Two methods that cannot be told apart are one.** -/
theorem method_eq (h : Decodes crates os archive entries destDir password pipeMode filter w
      spans w₁ stream)
    (heq : ((extractAllSolidAs method (crates.withCodecs .failing) os archive entries destDir
        password pipeMode filter).run w).1 =
      ((extractAllSolidAs method' (crates.withCodecs .failing) os archive entries destDir
        password pipeMode filter).run w).1) : method = method' := by
  by_cases hm : method = .store
  · by_cases hm' : method' = .store
    · rw [hm, hm']
    · obtain ⟨e, hout, he⟩ := h.failing_codec hm'
      rw [← heq, hm] at hout
      simp [(h.withCodecs .failing).store_codec hout] at he
  · obtain ⟨e, hout, he⟩ := h.failing_codec hm
    rw [heq] at hout
    by_cases hm' : method' = .store
    · rw [hm'] at hout
      simp [(h.withCodecs .failing).store_codec hout] at he
    · obtain ⟨e', hout', he'⟩ := h.failing_codec hm'
      rw [hout', Outcome.err.injEq] at hout
      rw [← hout, he'] at he
      exact (Option.some.inj he).symm

end Decodes

/-- The run gets as far as a codec. -/
def Reaches (crates : Crates) (os : Os) (archive : EggArchive) (entries : List EggFileEntry)
    (destDir : Path) (password : Option String) (pipeMode : Bool) (filter : Option (List String))
    (w : World) : Prop :=
  ∃ spans w₁ stream,
    Decodes crates os archive entries destDir password pipeMode filter w spans w₁ stream

/-- Where no codec is reached, it does not matter which one it would have been. -/
theorem extractAllSolidAs_unreached {method method' : CompressionMethod}
    (h : ¬ Reaches crates os archive entries destDir password pipeMode filter w) :
    (extractAllSolidAs method crates os archive entries destDir password pipeMode filter).run w =
      (extractAllSolidAs method' crates os archive entries destDir password pipeMode filter).run
        w := by
  rw [extractAllSolidAs, extractAllSolidAs, Run.bind_run, Run.bind_run]
  rcases hscan : (scanEntries os destDir pipeMode filter entries.zipIdx .empty).run w with
    ⟨spans | e | _ | _, w₁⟩
  case ok =>
    simp only [extractSpansAs]
    split
    · next hblocks =>
        rw [bind_assoc, bind_assoc, Run.bind_run, Run.bind_run, onReader]
        rcases hread : ((readBlocks crates entries password spans.blockReads .empty).run
          archive.reader).1 with stream | e | _ | _
        case ok => exact absurd ⟨spans, w₁, stream, hscan, hblocks, hread⟩ h
        all_goals rfl
    · rfl
  all_goals rfl

/-- **The codec shows**, if one is reached. -/
theorem extractAllSolidAs_eq_iff {method method' : CompressionMethod} :
    (∀ codecs, (extractAllSolidAs method (crates.withCodecs codecs) os archive entries destDir
        password pipeMode filter).run w =
      (extractAllSolidAs method' (crates.withCodecs codecs) os archive entries destDir
        password pipeMode filter).run w) ↔
      (Reaches crates os archive entries destDir password pipeMode filter w →
        method = method') := by
  constructor
  · rintro heq ⟨spans, w₁, stream, hdecodes⟩
    exact hdecodes.method_eq (congrArg Prod.fst (heq .failing))
  · intro hsame codecs
    by_cases h : Reaches crates os archive entries destDir password pipeMode filter w
    · rw [hsame h]
    · refine extractAllSolidAs_unreached fun ⟨spans, w₁, stream, hdecodes⟩ => h ?_
      refine ⟨spans, w₁, stream, hdecodes.scan, hdecodes.blocks, ?_⟩
      rw [← hdecodes.read, readBlocks_withCodecs]

end Unegg
