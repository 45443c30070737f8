import Unegg.SolidSink.Tilings

/-!
# Unegg.SolidSink.Complete

Which streams the sink gets through.

A stream that is the concatenation of the declared files, and of blocks with
the declared sizes and checksums, is accepted by every `write`, however it is
cut (`writes_total`).  Zero-length files are closed wherever they stand, those
at the end by `finish`; a zero-length block is passed only when more bytes
arrive, so one at the end is never passed and `finish` takes the stream for
truncated (`feed_complete_iff`).
-/

namespace Unegg

open Prog Crc32 Tiling

/-- Every file span belongs to an entry whose name may be joined; this is what
the caller checks before it makes a sink. -/
def SinkConfig.Checked (cfg : SinkConfig) : Prop :=
  ∀ i < cfg.fileSpans.length, ∃ entry, cfg.entryAt i = some entry ∧ SafeName entry.fileName

namespace SolidSink

variable {os : Os} {cfg : SinkConfig} {w₀ : World} {fs bs files blocks : List (List UInt8)}
  {f b d : List UInt8} {p p' : SolidSink × World}

/-- A call that succeeds leaves the sink. -/
theorem call_of_ok {α : Type} {m : Run World IoError α} {a : α} {w : World}
    (h : m.run p.2 = (.ok a, w)) : (call m).run p = (.ok a, (p.1, w)) :=
  call_ok.mpr ⟨w, h, rfl⟩

/-! ## one step -/

/-- An output whose name may be joined is opened. -/
theorem openOutput_total (hos : os.Succeeds) {entry : EggFileEntry}
    (hname : SafeName entry.fileName) (p : SolidSink × World) :
    ∃ p', (openOutput os cfg entry).run p = (.ok (), p') := by
  rw [openOutput]
  split
  · exact ⟨_, rfl⟩
  · have hjoin := safeJoin_ok.mpr ⟨hname, (rfl : _ = cfg.destDir ++ _)⟩
    obtain ⟨w₁, h₁⟩ := hos.createParent_total (cfg.destDir ++
      (components entry.fileName).filter Component.isNormal) p.2
    rw [hjoin, Except.mapError, Run.ofExcept, pure_bind, Run.bind_of_ok (call_of_ok h₁),
      Run.bind_of_ok (call_of_ok (hos.createFile_run _ w₁))]
    exact ⟨_, rfl⟩

/-- The file of the next byte is opened. -/
theorem ensureFileOpen_total (hos : os.Succeeds) (hcfg : cfg.Checked)
    (hlt : p.1.fileIdx < cfg.fileSpans.length) :
    ∃ p', (ensureFileOpen os cfg).run p = (.ok (), p') := by
  obtain ⟨entry, hentry, hname⟩ := hcfg _ hlt
  rw [ensureFileOpen, Run.bind_of_ok (self_run p)]
  split
  · exact ⟨p, rfl⟩
  · rw [Run.bind_of_ok (modify_run _ p), hentry]
    simp only
    split
    · exact openOutput_total hos hname _
    · exact ⟨_, rfl⟩

/-- Full files are passed. -/
theorem advanceFullFiles_total (hos : os.Succeeds) (hcfg : cfg.Checked)
    (hAt : At cfg w₀ fs f bs b p) : ∃ p', (advanceFullFiles os cfg).run p = (.ok (), p') := by
  have hstep : ∀ u q, (∃ fs f, At cfg w₀ fs f bs b q) →
      (∃ u' q', (advanceStep os cfg u).run q = (.ok (.next u'), q') ∧
        (∃ fs f, At cfg w₀ fs f bs b q') ∧
        cfg.fileSpans.length - q'.1.fileIdx < cfg.fileSpans.length - q.1.fileIdx) ∨
      ∃ u' q', (advanceStep os cfg u).run q = (.ok (.done u'), q') ∧ True := by
    rintro u q ⟨fs, f, hAt⟩
    obtain ⟨r, q', hrun⟩ : ∃ r q', (advanceStep os cfg u).run q = (.ok r, q') := by
      rw [advanceStep, Run.bind_of_ok (self_run q)]
      cases hspan : cfg.fileSpans[q.1.fileIdx]? with
      | none => exact ⟨_, _, rfl⟩
      | some span =>
          simp only
          split
          · exact ⟨_, _, rfl⟩
          · have hlt := (List.getElem?_eq_some_iff.mp hspan).1
            obtain ⟨q₁, h₁⟩ := ensureFileOpen_total hos hcfg hlt
            rw [Run.bind_of_ok h₁]
            exact ⟨_, _, rfl⟩
    rcases r with u' | u'
    · obtain ⟨hAt', hlt⟩ := hAt.advanceStep_next hrun
      exact .inl ⟨u', q', hrun, ⟨_, _, hAt'⟩, hlt⟩
    · exact .inr ⟨u', q', hrun, trivial⟩
  obtain ⟨_, p', hrun, -⟩ := Run.loop_total (I := fun _ q => ∃ fs f, At cfg w₀ fs f bs b q)
    (Q := fun _ _ => True) (fun _ q => cfg.fileSpans.length - q.1.fileIdx) hstep ⟨fs, f, hAt⟩
    (Nat.lt_succ_of_le (Nat.sub_le _ _))
  exact ⟨p', hrun⟩

/-- A chunk is written. -/
theorem writeChunk_total (hos : os.Succeeds) (chunk : List UInt8) (p : SolidSink × World) :
    ∃ p', (writeChunk os chunk).run p = (.ok (), p') := by
  obtain ⟨w₁, h₁⟩ := hos.writeTo_total p.1.writer chunk p.2
  rw [writeChunk, Run.bind_of_ok (modify_run _ p), Run.bind_of_ok (self_run _)]
  rw [Run.bind_of_ok (call_of_ok (by exact h₁))]
  exact ⟨_, rfl⟩

/-- A block is finished if it has its checksum. -/
theorem finishBlock_total {crcSize : Nat} {crc : UInt32}
    (hsum : p.1.crcWritten = crcSize → p.1.hasher.finalize = crc) :
    ∃ p', (finishBlock crcSize crc).run p = (.ok (), p') := by
  rw [finishBlock, Run.bind_of_ok (self_run p)]
  split
  · next hfull =>
      rw [Run.bind_of_ok (modify_run _ p), if_neg (not_not.mpr (hsum hfull))]
      exact ⟨_, rfl⟩
  · exact ⟨_, rfl⟩

/-! ## the writes of a well-tiled stream -/

/-- The stream that the config declares: it is made of files with these
contents, and of these blocks. -/
structure Declared (cfg : SinkConfig) (files blocks : List (List UInt8)) : Prop where
  fileSpans : files.map List.length = cfg.fileSpans.map Prod.snd
  crcSpans : blocks.map (fun c => (c.length, crc32 c)) = cfg.crcSpans
  flat : files.flatten = blocks.flatten

/-- The blocks have the sizes their spans declare. -/
theorem Declared.sizes (h : Declared cfg files blocks) :
    blocks.map List.length = cfg.crcSpans.map Prod.fst := by
  simp [← h.crcSpans]

/-- One pass of `write` in the middle of a declared stream does not fail. -/
theorem writeStep_total (hos : os.Succeeds) (hcfg : cfg.Checked)
    (hdecl : Declared cfg files blocks) {rest : List UInt8} (hAt : At cfg w₀ fs f bs b p)
    (hpre : bs.flatten ++ b ++ rest <+: blocks.flatten) (hne : rest ≠ []) :
    ∃ rest' p', (writeStep os cfg rest).run p = (.ok (.next rest'), p') := by
  obtain ⟨p₁, h₁⟩ := advanceFullFiles_total hos hcfg hAt
  obtain ⟨fs, f, hAt, hwant⟩ := advanceFullFiles_ok hAt h₁
  have hfpre : fs.flatten ++ f ++ rest <+: files.flatten := by
    rwa [hAt.flat, hdecl.flat]
  have hflt := hAt.files.length_lt hdecl.fileSpans hfpre hne
  have hblt := hAt.blocks.length_lt hdecl.sizes hpre hne
  rw [List.length_map] at hflt hblt
  have hspan := List.getElem?_eq_getElem hflt
  have hblock := List.getElem?_eq_getElem hblt
  have hfile : (cfg.fileSpans.map Prod.snd)[fs.length]? = some cfg.fileSpans[fs.length].2 := by
    rw [List.getElem?_map, hspan]
    rfl
  have hcrc : (cfg.crcSpans.map Prod.fst)[bs.length]? = some cfg.crcSpans[bs.length].1 := by
    rw [List.getElem?_map, hblock]
    rfl
  obtain ⟨p₂, h₂⟩ := ensureFileOpen_total hos hcfg (hAt.fileIdx.trans_lt hflt)
  obtain ⟨hAt₂, hopen⟩ := ensureFileOpen_ok hAt h₂
  have hfle := hAt.files.part_le _ hfile
  have hble := hAt.blocks.part_le _ hcrc
  rw [writeStep, if_neg hne, Run.bind_of_ok h₁, Run.bind_of_ok (self_run p₁), hAt.fileIdx, hspan]
  simp only
  rw [hAt.crcIdx, hblock]
  simp only
  rw [Run.bind_of_ok h₂, hAt.fileWritten, hAt.crcWritten, if_neg (by omega)]
  generalize htake : min (min rest.length (min (cfg.fileSpans[fs.length].2 - f.length) rest.length))
    (min (cfg.crcSpans[bs.length].1 - b.length) rest.length) = n
  have hlen : (rest.take n).length = n := by
    rw [List.length_take]
    omega
  obtain ⟨p₃, h₃⟩ := writeChunk_total hos (rest.take n) p₂
  have hAt₃ := writeChunk_ok hAt₂ hopen hfile hcrc (by omega) (by omega) h₃
  obtain ⟨p₄, h₄⟩ : ∃ p₄, (finishBlock cfg.crcSpans[bs.length].1 cfg.crcSpans[bs.length].2).run p₃ =
      (.ok (), p₄) := by
    refine finishBlock_total fun hfull => ?_
    rw [hAt₃.crcWritten] at hfull
    -- the part of the block is the whole declared block
    have hwhole := (hAt₃.blocks.close (by rw [hcrc, hfull])).eq_take hdecl.sizes
      (by
        refine List.IsPrefix.trans ?_ hpre
        rw [List.flatten_append, List.flatten_singleton, List.append_nil, ← List.append_assoc]
        exact (List.prefix_append_right_inj _).mpr (List.take_prefix n rest))
    have hget := congrArg (·[bs.length]?) hwhole
    simp only [List.getElem?_concat_length, List.length_append, List.length_singleton,
      List.getElem?_take_of_succ] at hget
    have hsum := congrArg (·[bs.length]?) hdecl.crcSpans
    simp only [List.getElem?_map, ← hget, hblock, Option.map_some, Option.some.injEq] at hsum
    rw [hAt₃.hasher, ← hsum]
    rfl
  rw [Run.bind_of_ok h₃, Run.bind_of_ok h₄]
  exact ⟨_, _, rfl⟩

/-- A `write` in the middle of a declared stream succeeds. -/
theorem write_total (hos : os.Succeeds) (hcfg : cfg.Checked) (hdecl : Declared cfg files blocks)
    {buf : List UInt8} (hold : Holds cfg w₀ d p) (hpre : d ++ buf <+: blocks.flatten) :
    ∃ p', (write os cfg buf).run p = (.ok buf.length, p') := by
  have hstep : ∀ rest q,
      (∃ fs f bs b, At cfg w₀ fs f bs b q ∧ bs.flatten ++ b ++ rest <+: blocks.flatten) →
      (∃ rest' q', (writeStep os cfg rest).run q = (.ok (.next rest'), q') ∧
        (∃ fs f bs b, At cfg w₀ fs f bs b q' ∧ bs.flatten ++ b ++ rest' <+: blocks.flatten) ∧
        rest'.length + (cfg.crcSpans.length - q'.1.crcIdx) <
          rest.length + (cfg.crcSpans.length - q.1.crcIdx)) ∨
      ∃ u q', (writeStep os cfg rest).run q = (.ok (.done u), q') ∧ True := by
    rintro rest q ⟨fs, f, bs, b, hAt, hpre⟩
    by_cases hne : rest = []
    · exact .inr ⟨(), q, by rw [writeStep, if_pos hne]; rfl, trivial⟩
    · obtain ⟨rest', q', hrun⟩ := writeStep_total hos hcfg hdecl hAt hpre hne
      refine .inl ⟨rest', q', hrun, ?_⟩
      obtain ⟨chunk, fs', f', rfl, -, hAt' | ⟨hAt', hchunk, -⟩⟩ := writeStep_ok hAt hrun
      · have hle := hAt'.blocks.length_le
        have hidx := hAt.crcIdx
        have hidx' := hAt'.crcIdx
        rw [List.length_append, List.length_singleton] at hle hidx'
        rw [List.length_map] at hle
        refine ⟨⟨_, _, _, _, hAt', by simpa using hpre⟩, ?_⟩
        rw [List.length_append]
        omega
      · have hpos := List.length_pos_of_ne_nil hchunk
        refine ⟨⟨_, _, _, _, hAt', by simpa using hpre⟩, ?_⟩
        rw [hAt.crcIdx, hAt'.crcIdx, List.length_append]
        omega
  obtain ⟨fs, f, bs, b, hAt, -, -, rfl⟩ := hold
  obtain ⟨_, p', hrun, -⟩ := Run.loop_total
    (I := fun rest q => ∃ fs f bs b, At cfg w₀ fs f bs b q ∧
      bs.flatten ++ b ++ rest <+: blocks.flatten) (Q := fun _ _ => True)
    (fun rest q => rest.length + (cfg.crcSpans.length - q.1.crcIdx)) hstep ⟨fs, f, bs, b, hAt, hpre⟩
    (Nat.lt_succ_of_le (Nat.add_le_add_left (Nat.sub_le _ _) _))
  rw [write, Run.bind_of_ok hrun]
  exact ⟨p', rfl⟩

/-- `finish` accepts a declared stream whose last block is not empty. -/
theorem finish_total (hos : os.Succeeds) (hcfg : cfg.Checked) (hdecl : Declared cfg files blocks)
    (hold : Holds cfg w₀ blocks.flatten p) (hlast : ∀ span ∈ cfg.crcSpans.getLast?, span.1 ≠ 0) :
    ∃ p', (finish os cfg).run p = (.ok (), p') := by
  obtain ⟨fs, f, bs, b, hAt, hpart, -, hflat⟩ := hold
  obtain ⟨p₁, h₁⟩ := advanceFullFiles_total hos hcfg hAt
  obtain ⟨fs, f, hAt, hwant⟩ := advanceFullFiles_ok hAt h₁
  have hfiles : fs.length = cfg.fileSpans.length := by
    have h := hAt.files.length_eq hdecl.fileSpans (by rw [hAt.flat, hflat, hdecl.flat]) hwant
    rwa [List.length_map] at h
  have hblocks : bs.length = (cfg.crcSpans.map Prod.fst).length := by
    rcases hpart with rfl | hwantb
    · refine hAt.blocks.length_eq_of_last hdecl.sizes (by rwa [List.append_nil] at hflat) ?_
      intro n hn
      rw [List.getLast?_map, Option.mem_def, Option.map_eq_some_iff] at hn
      obtain ⟨span, hspan, rfl⟩ := hn
      exact hlast span hspan
    · exact hAt.blocks.length_eq hdecl.sizes hflat hwantb
  have hb := hAt.blocks.part_nil hdecl.sizes hflat hblocks
  rw [List.length_map] at hblocks
  rw [finish, Run.bind_of_ok (Run.mapErr_of_ok h₁),
    Run.bind_of_ok (Run.mapErr_of_ok (self_run p₁)), if_neg]
  · exact ⟨p₁, rfl⟩
  · rw [hAt.fileIdx, hAt.crcIdx, hAt.crcWritten, hfiles, hblocks, hb]
    simp

/-! ## a stream fed to the sink -/

/-- The `write` calls one after the other, and then `finish`. -/
def feed (os : Os) (cfg : SinkConfig) (cuts : List (List UInt8)) :
    Run (SolidSink × World) EggError Unit := do
  Run.forEach (fun buf => Run.mapErr .io (do let _ ← write os cfg buf)) cuts
  finish os cfg

/-- What every call keeps for the bytes it was given, a sequence of calls keeps for all. -/
theorem holds_forEach {ε : Type} {f : List UInt8 → Run (SolidSink × World) ε Unit}
    (hf : ∀ buf d p p', Holds cfg w₀ d p → (f buf).run p = (.ok (), p') → Holds cfg w₀ (d ++ buf) p')
    {bufs : List (List UInt8)} (hold : Holds cfg w₀ d p)
    (h : (Run.forEach f bufs).run p = (.ok (), p')) : Holds cfg w₀ (d ++ bufs.flatten) p' := by
  induction bufs generalizing d p with
  | nil =>
      simp only [Run.forEach, Run.pure_run, Prod.mk.injEq, true_and] at h
      rwa [← h, List.flatten_nil, List.append_nil]
  | cons buf bufs ih =>
      rw [Run.forEach, Run.bind_ok] at h
      obtain ⟨_, p₁, hfirst, h⟩ := h
      have hrest := ih (hf buf d p p₁ hold hfirst) h
      rwa [List.append_assoc, ← List.flatten_cons] at hrest

/-- A write that succeeds has been taken. -/
theorem holds_writeUnit {buf : List UInt8} (hold : Holds cfg w₀ d p)
    (h : (do let _ ← write os cfg buf : Run (SolidSink × World) IoError Unit).run p = (.ok (), p')) :
    Holds cfg w₀ (d ++ buf) p' := by
  rw [Run.bind_ok] at h
  obtain ⟨n, p₁, hwrite, hret⟩ := h
  simp only [Run.pure_run, Prod.mk.injEq, true_and] at hret
  subst hret
  exact holds_write hold hwrite

/-- Writes that succeed have been taken one behind the other. -/
theorem writes_ok {cuts : List (List UInt8)} (hold : Holds cfg w₀ d p)
    (h : (Run.forEach (fun buf => Run.mapErr EggError.io (do let _ ← write os cfg buf)) cuts).run p =
      (.ok (), p')) : Holds cfg w₀ (d ++ cuts.flatten) p' :=
  holds_forEach (fun _ _ _ _ hold h => holds_writeUnit hold (Run.mapErr_ok.mp h)) hold h

/-- **Every write of a declared stream succeeds**, wherever it is cut. -/
theorem writes_total (hos : os.Succeeds) (hcfg : cfg.Checked) (hdecl : Declared cfg files blocks)
    {cuts : List (List UInt8)} (hold : Holds cfg w₀ d p)
    (hpre : d ++ cuts.flatten <+: blocks.flatten) :
    ∃ p', (Run.forEach (fun buf => Run.mapErr EggError.io (do let _ ← write os cfg buf)) cuts).run p =
      (.ok (), p') := by
  induction cuts generalizing d p with
  | nil => exact ⟨p, rfl⟩
  | cons buf cuts ih =>
      rw [List.flatten_cons, ← List.append_assoc] at hpre
      obtain ⟨p₁, h₁⟩ := write_total hos hcfg hdecl hold ((List.prefix_append _ _).trans hpre)
      obtain ⟨p', h'⟩ := ih (holds_write hold h₁) hpre
      refine ⟨p', ?_⟩
      have hfirst : (Run.mapErr EggError.io (do let _ ← write os cfg buf)).run p = (.ok (), p₁) :=
        Run.mapErr_of_ok (by rw [Run.bind_of_ok h₁]; rfl)
      rw [Run.forEach, Run.bind_of_ok hfirst, h']

/-- **Completeness of the sink**: a declared stream goes through, each file to
its output, if and only if there is no block or the last one is not empty. -/
theorem feed_complete_iff (hos : os.Succeeds) (hcfg : cfg.Checked)
    (hdecl : Declared cfg files blocks) {cuts : List (List UInt8)}
    (hcuts : cuts.flatten = blocks.flatten) (w : World) :
    (∃ p', (feed os cfg cuts).run (.new, w) = (.ok (), p') ∧
        Wrote w p'.2 (cfg.outputsOf files)) ↔
      ∀ span ∈ cfg.crcSpans.getLast?, span.1 ≠ 0 := by
  constructor
  · rintro ⟨p', hrun, -⟩ span hspan
    rw [feed, Run.bind_ok] at hrun
    obtain ⟨_, p₁, hwrites, hfinish⟩ := hrun
    obtain ⟨_, bs, -, -, -, hbs, hne, -⟩ := finish_ok (writes_ok (holds_new w) hwrites) hfinish
    rw [← hbs, List.getLast?_map, Option.mem_def, Option.map_eq_some_iff] at hspan
    obtain ⟨c, hc, rfl⟩ := hspan
    exact fun h => hne c hc (List.length_eq_zero_iff.mp h)
  · intro hlast
    have hpre : [] ++ cuts.flatten <+: blocks.flatten := by rw [hcuts, List.nil_append]
    obtain ⟨p₁, hwrites⟩ := writes_total hos hcfg hdecl (holds_new w) hpre
    have hold := writes_ok (holds_new w) hwrites
    rw [List.nil_append, hcuts] at hold
    obtain ⟨p', hfinish⟩ := finish_total hos hcfg hdecl hold hlast
    obtain ⟨fs, -, hflat, -, hfs, -, -, hwrote⟩ := finish_ok hold hfinish
    have heq : fs = files := by
      refine List.eq_iff_flatten_eq.mpr ⟨?_, ?_⟩
      · rw [← hflat, hdecl.flat]
      · rw [hfs, hdecl.fileSpans]
    refine ⟨p', ?_, heq ▸ hwrote⟩
    rw [feed, Run.bind_of_ok hwrites, hfinish]

/-- A file `"a"` of one byte, cut into the given blocks. -/
def oneByteFile (crcSpans : List (Nat × UInt32)) : SinkConfig where
  fileSpans := [(0, 1)]
  crcSpans
  entries := [⟨"a", 0, 1, [], none, none, 0, none⟩]
  destDir := [.rootDir, .normal "out"]
  filter := none
  pipeMode := false

theorem oneByteFile_checked (crcSpans : List (Nat × UInt32)) : (oneByteFile crcSpans).Checked := by
  intro i hi
  obtain rfl : i = 0 := by
    have : (oneByteFile crcSpans).fileSpans.length = 1 := rfl
    omega
  exact ⟨_, rfl, by decide⟩

/-- An empty block in front is passed. -/
theorem feed_leading_empty :
    ∃ p', (feed Os.obliging (oneByteFile [(0, 0), (1, 0xE8B7BE43)]) [[0x61]]).run (.new, []) =
        (.ok (), p') ∧
      Wrote [] p'.2 [(.file [.rootDir, .normal "out", .normal "a"], [0x61])] := by
  have hdecl : Declared (oneByteFile [(0, 0), (1, 0xE8B7BE43)]) [[0x61]] [[], [0x61]] :=
    ⟨by decide, by decide +kernel, by decide⟩
  have hcuts : ([[0x61]] : List (List UInt8)).flatten = [[], [0x61]].flatten := by decide
  exact (feed_complete_iff Os.obliging_succeeds (oneByteFile_checked _) hdecl hcuts []).mpr
    (by decide)

/-- An empty block at the end is not. -/
theorem feed_trailing_empty :
    Os.obliging.Succeeds ∧ (oneByteFile [(1, 0xE8B7BE43), (0, 0)]).Checked ∧
      Declared (oneByteFile [(1, 0xE8B7BE43), (0, 0)]) [[0x61]] [[0x61], []] ∧
      ((feed Os.obliging (oneByteFile [(1, 0xE8B7BE43), (0, 0)]) [[0x61]]).run (.new, [])).1 =
        .err .corruptedFile :=
  ⟨Os.obliging_succeeds, oneByteFile_checked _, ⟨by decide, by decide +kernel, by decide⟩,
    by decide +kernel⟩

end SolidSink

end Unegg
