import Unegg.SolidSink.Lockstep

/-!
# Unegg.SolidSink.Leading

An empty block in front of the others.

The sink passes it with the first byte it gets, in a pass of its own that
writes nothing; from then on it is one block ahead of a sink without it, and
otherwise the same (`leading_inStep`).  The blocks of the entries play no part
in the sink at all.
-/

namespace Unegg

open Prog Run Crc32

/-- An entry without its blocks. -/
def EggFileEntry.bare (entry : EggFileEntry) : EggFileEntry := { entry with blocks := [] }

/-- Two sinks with the same outputs: they differ in the blocks only. -/
structure SinkConfig.SameOutputs (cfg cfg' : SinkConfig) : Prop where
  fileSpans : cfg'.fileSpans = cfg.fileSpans
  entries : cfg'.entries.map EggFileEntry.bare = cfg.entries.map EggFileEntry.bare
  destDir : cfg'.destDir = cfg.destDir
  filter : cfg'.filter = cfg.filter
  pipeMode : cfg'.pipeMode = cfg.pipeMode

namespace SolidSink

variable {os : Os} {cfg cfg' : SinkConfig} {p q : SolidSink × World}

/-- Opening a file looks at its entry without the blocks. -/
theorem openAt_bare (i : Nat) : openAt os cfg i =
    match (cfg.entryAt i).map EggFileEntry.bare with
    | none => Run.panic
    | some entry => if shouldExtract entry cfg.filter then openOutput os cfg entry else return () := by
  rw [openAt]
  cases cfg.entryAt i with
  | none => rfl
  | some entry => rfl

section SameOutputs

variable (h : cfg.SameOutputs cfg')
include h

/-- The same outputs are opened alike. -/
theorem openAt_eq (i : Nat) : openAt os cfg' i = openAt os cfg i := by
  have hentry : (cfg'.entryAt i).map EggFileEntry.bare = (cfg.entryAt i).map EggFileEntry.bare := by
    rw [SinkConfig.entryAt, SinkConfig.entryAt, h.fileSpans]
    cases cfg.fileSpans[i]? with
    | none => rfl
    | some span => simpa using congrArg (fun es => es[span.1]?) h.entries
  rw [openAt_bare, openAt_bare, hentry, h.filter]
  simp only [openOutput, h.pipeMode, h.destDir]

/-- The file of the next byte is opened alike. -/
theorem ensureFileOpen_eq : ensureFileOpen os cfg' = ensureFileOpen os cfg := by
  have hrun : ∀ p, (ensureFileOpen os cfg').run p = (ensureFileOpen os cfg).run p := by
    intro p
    rw [ensureFileOpen_run, ensureFileOpen_run, openAt_eq h]
  exact congrArg Run.mk (funext hrun)

/-- Full files are passed alike. -/
theorem advanceFullFiles_eq : advanceFullFiles os cfg' = advanceFullFiles os cfg := by
  rw [advanceFullFiles, advanceFullFiles, h.fileSpans]
  congr 1
  funext u
  simp only [advanceStep, h.fileSpans, ensureFileOpen_eq h]

end SameOutputs

/-! ## behind the empty block -/

/-- The same sink, some blocks further on. -/
def ahead (k : Nat) (p : SolidSink × World) : SolidSink × World :=
  ({ p.1 with crcIdx := p.1.crcIdx + k }, p.2)

/-- `m` does not look at the index of the block. -/
def Blind (k : Nat) {α : Type} (m : Method α) : Prop := ∀ p,
  Alike (fun _ p q => q = ahead k p) (fun p q => q = ahead k p) (m.run p) (m.run (ahead k p))

/-- A call to the system sees no block. -/
theorem blind_call (k : Nat) {α : Type} (m : Run World IoError α) : Blind k (call m) := by
  intro p
  simp only [call, zoom, ahead]
  rcases m.run p.2 with ⟨a | e | _ | _, w⟩
  · exact .ok rfl
  · exact .err rfl
  · exact .panic rfl
  · exact .hang rfl

/-- A change to which the block index is indifferent sees no block. -/
theorem blind_modify {k : Nat} {f : SolidSink → SolidSink}
    (hf : ∀ s, f { s with crcIdx := s.crcIdx + k } = { f s with crcIdx := (f s).crcIdx + k }) :
    Blind k (modify f) := by
  intro p
  refine .ok ?_
  simp only [ahead, Prod.mk.injEq, and_true]
  exact hf p.1

/-- Two parts that see no block see none together. -/
theorem Blind.bind {k : Nat} {α β : Type} {m : Method α} {f : α → Method β} (hm : Blind k m)
    (hf : ∀ a, Blind k (f a)) : Blind k (m >>= f) := by
  intro p
  refine Alike.bind (hm p) fun a p₁ q₁ hq => ?_
  subst hq
  exact hf a p₁

/-- Looking at the sink is allowed where the index plays no part. -/
theorem Blind.self_bind {k : Nat} {α : Type} {f : SolidSink → Method α}
    (hf : ∀ s, f { s with crcIdx := s.crcIdx + k } = f s) (h : ∀ s, Blind k (f s)) :
    Blind k (self >>= f) := by
  intro p
  rw [bind_of_ok (self_run p), bind_of_ok (self_run (ahead k p)), ahead, hf]
  exact h p.1 p

theorem blind_ofExcept (k : Nat) {α : Type} (x : Except IoError α) : Blind k (ofExcept x) := by
  intro p
  cases x with
  | ok a => exact .ok rfl
  | error e => exact .err rfl

/-- Opening an output sees no block. -/
theorem blind_openOutput (k : Nat) (entry : EggFileEntry) :
    Blind k (openOutput os cfg entry) := by
  rw [openOutput]
  split
  · exact (blind_call k _).bind fun _ => blind_modify fun _ => rfl
  · refine (blind_ofExcept k _).bind fun path => (blind_call k _).bind fun _ => ?_
    exact (blind_call k _).bind fun _ => blind_modify fun _ => rfl

/-- Opening a file by its index sees none either. -/
theorem blind_openAt (k i : Nat) : Blind k (openAt os cfg i) := by
  rw [openAt]
  split
  · exact fun _ => .panic rfl
  · split
    · exact blind_openOutput k _
    · exact fun _ => .ok rfl

/-- Writing a chunk sees no block. -/
theorem blind_writeChunk (k : Nat) (chunk : List UInt8) : Blind k (writeChunk os chunk) := by
  refine (blind_modify fun _ => rfl).bind fun _ => .self_bind (fun _ => rfl) fun s => ?_
  exact (blind_call k _).bind fun _ => blind_modify fun _ => rfl

theorem blind_flush (k : Nat) : Blind k (flush os) := by
  refine .self_bind (fun _ => rfl) fun s => ?_
  split
  · exact blind_call k _
  · exact fun _ => .ok rfl

/-- A sink that has passed some blocks more is in step. -/
theorem lockstep_ahead {passed : List (Nat × UInt32)} (h : cfg.SameOutputs cfg')
    (hcrc : cfg'.crcSpans = passed ++ cfg.crcSpans) :
    Lockstep os cfg cfg' fun p q => q = ahead passed.length p where
  fileSpans := h.fileSpans
  counters := by
    rintro p _ rfl
    exact ⟨rfl, rfl, rfl, rfl, rfl⟩
  crcSpan := by
    rintro p _ rfl
    rw [hcrc, ahead, Nat.add_comm, List.getElem?_append_right (Nat.le_add_right _ _),
      Nat.add_sub_cancel_left]
  lastBlock := by
    rintro p _ rfl
    simp only [hcrc, ahead, List.length_append]
    omega
  opens := by
    rintro p _ rfl - -
    rw [openAt_eq h]
    exact blind_openAt passed.length p.1.fileIdx (opening p.1, p.2)
  closes := by
    rintro p _ rfl -
    rfl
  writes := by
    rintro p _ chunk rfl -
    exact blind_writeChunk passed.length chunk p
  rehashes := by
    rintro p _ rfl
    rfl
  passes := by
    rintro p _ rfl
    simp only [passing, ahead, Nat.add_right_comm]
  flushes := by
    rintro p _ rfl
    exact blind_flush passed.length p

/-! ## before the first byte -/

/-- No byte has been taken. -/
def Untouched (p : SolidSink × World) : Prop :=
  p.1.crcIdx = 0 ∧ p.1.crcWritten = 0 ∧ p.1.hasher = .new

/-- What leaves the block alone leaves it untouched. -/
theorem Untouched.sameBlock (h : Untouched p) (hpq : SameBlock p q) : Untouched q :=
  ⟨hpq.1.trans h.1, hpq.2.1.trans h.2.1, hpq.2.2.trans h.2.2⟩

/-- The second sink is past the empty block, or still in front of it. -/
def Leading (p q : SolidSink × World) : Prop := q = ahead 1 p ∨ (q = p ∧ Untouched p)

/-- No file is passed while the current one has room. -/
theorem advanceFullFiles_of_room
    (h : ∀ span ∈ cfg.fileSpans[p.1.fileIdx]?, p.1.fileWritten < span.2) :
    (advanceFullFiles os cfg).run p = (.ok (), p) := by
  refine loop_done ?_
  rw [advanceStep, bind_of_ok (self_run p)]
  cases hspan : cfg.fileSpans[p.1.fileIdx]? with
  | none => rfl
  | some span =>
      have hlt := h span (by rw [hspan]; rfl)
      simp only [if_pos hlt, pure_run]

/-- A file that is open stays open. -/
theorem ensureFileOpen_of_open (h : p.1.fileOpen = true) :
    (ensureFileOpen os cfg).run p = (.ok (), p) := by
  rw [ensureFileOpen_run, if_pos h]

/-- An empty chunk is not written. -/
theorem writeChunk_nil (p : SolidSink × World) : (writeChunk os []).run p = (.ok (), p) := by
  have hwrite : (os.writeTo p.1.writer []).run p.2 = (.ok (), p.2) := by
    cases p.1.writer with
    | none => rfl
    | some t => simp [Os.writeTo, ByteSink.writeAll, ByteSink.writeAllCounted]
  have hcall := call_ok.mpr ⟨p.2, hwrite, (rfl : (p.1, p.2) = _)⟩
  rw [writeChunk, bind_of_ok (modify_run _ p), bind_of_ok (self_run _), Hasher.update_nil,
    bind_of_ok hcall, modify_run]
  rfl

/-- The part of a pass that gets a file ready; its size. -/
def prepare (os : Os) (cfg : SinkConfig) : Method Nat := do
  advanceFullFiles os cfg
  let s ← self
  match cfg.fileSpans[s.fileIdx]? with
  | none => Run.throw ⟨.invalidData, "solid output exceeds declared uncompressed size"⟩
  | some (_, fileSize) =>
    ensureFileOpen os cfg
    return fileSize

/-- The part of a pass that writes to it. -/
def fill (os : Os) (rest : List UInt8) (block : Nat × UInt32) (fileSize : Nat) :
    Method (Prog.Flow (List UInt8) Unit) := do
  let s ← self
  if fileSize < s.fileWritten ∨ block.1 < s.crcWritten then Run.panic
  else
    let fileNeed := min (fileSize - s.fileWritten) rest.length
    let crcNeed := min (block.1 - s.crcWritten) rest.length
    let take := min (min rest.length fileNeed) crcNeed
    writeChunk os (rest.take take)
    finishBlock block.1 block.2
    return .next (rest.drop take)

/-- The file of the next byte is prepared alike. -/
theorem prepare_eq (h : cfg.SameOutputs cfg') : prepare os cfg' = prepare os cfg := by
  simp only [prepare, advanceFullFiles_eq h, ensureFileOpen_eq h, h.fileSpans]

/-- Preparing it touches no block. -/
theorem sameBlock_prepare : Steps SameBlock (prepare os cfg) := by
  refine .bind sameBlock_advanceFullFiles fun _ => .bind (fun _ => ⟨rfl, rfl, rfl⟩) fun s => ?_
  split
  · exact .throw _
  · exact .bind sameBlock_ensureFileOpen fun _ => .pure _

/-- A pass inside a block. -/
theorem writeStep_eq (os : Os) {rest : List UInt8} {block : Nat × UInt32} (hne : rest ≠ [])
    (hblock : cfg.crcSpans[p.1.crcIdx]? = some block) :
    (writeStep os cfg rest).run p = (prepare os cfg >>= fill os rest block).run p := by
  rw [writeStep, if_neg hne, prepare, bind_assoc, bind_run, bind_run]
  rcases hadv : (advanceFullFiles os cfg).run p with ⟨u | e | _ | _, p₁⟩
  case ok =>
    have hidx := (sameBlock_advanceFullFiles.of_run hadv).1
    simp only
    rw [bind_assoc, bind_of_ok (self_run p₁), bind_of_ok (self_run p₁), hidx, hblock]
    cases cfg.fileSpans[p₁.1.fileIdx]? with
    | none => rfl
    | some span =>
        simp only
        rw [bind_assoc, bind_run, bind_run]
        rcases hopen : (ensureFileOpen os cfg).run p₁ with ⟨u | e | _ | _, p₂⟩
        case ok =>
          simp only
          rw [pure_bind, fill, bind_of_ok (self_run p₂), (ensureFileOpen_done hopen).2.2,
            (sameBlock_ensureFileOpen.of_run hopen).2.1]
        all_goals rfl
  all_goals rfl

/-- A file of that size is open and not full. -/
structure Ready (cfg : SinkConfig) (fileSize : Nat) (p : SolidSink × World) : Prop where
  span : ∃ entry, cfg.fileSpans[p.1.fileIdx]? = some (entry, fileSize)
  fileOpen : p.1.fileOpen = true
  room : p.1.fileWritten < fileSize

/-- Behind it a file with room is open. -/
theorem prepare_ok {fileSize : Nat} (h : (prepare os cfg).run p = (.ok fileSize, q)) :
    Ready cfg fileSize q := by
  rw [prepare, bind_ok] at h
  obtain ⟨_, p₁, hadv, h⟩ := h
  have hroom := advanceFullFiles_done hadv
  rw [bind_of_ok (self_run p₁)] at h
  cases hspan : cfg.fileSpans[p₁.1.fileIdx]? with
  | none => simp [hspan] at h
  | some span =>
      simp only [hspan] at h hroom
      rw [bind_ok] at h
      obtain ⟨_, p₂, hopen, h⟩ := h
      simp only [pure_run, Prod.mk.injEq, Outcome.ok.injEq] at h
      obtain ⟨rfl, rfl⟩ := h
      obtain ⟨hopened, hidx, hwritten⟩ := ensureFileOpen_done hopen
      exact ⟨⟨span.1, by rw [hidx, hspan]⟩, hopened, hwritten ▸ hroom span rfl⟩

/-- A file that is ready stays so. -/
theorem Ready.prepare {fileSize : Nat} (h : Ready cfg fileSize p) :
    (prepare os cfg).run p = (.ok fileSize, p) := by
  obtain ⟨entry, hspan⟩ := h.span
  have hadv : (advanceFullFiles os cfg).run p = (.ok (), p) := by
    refine advanceFullFiles_of_room ?_
    rw [hspan]
    rintro _ ⟨⟩
    exact h.room
  rw [SolidSink.prepare, bind_of_ok hadv, bind_of_ok (self_run p), hspan]
  simp only
  rw [bind_of_ok (ensureFileOpen_of_open h.fileOpen), pure_run]

/-- The pass over the empty block. -/
theorem fill_empty {fileSize : Nat} (rest : List UInt8) (hp : Untouched p)
    (hlt : p.1.fileWritten < fileSize) :
    (fill os rest (0, 0) fileSize).run p = (.ok (.next rest), ahead 1 p) := by
  obtain ⟨hidx, hwritten, hhasher⟩ := hp
  rw [fill, bind_of_ok (self_run p), if_neg (by omega)]
  simp only [hwritten, Nat.sub_self, Nat.zero_min, Nat.min_zero, List.take_zero, List.drop_zero]
  rw [bind_of_ok (writeChunk_nil p), finishBlock, bind_run, bind_of_ok (self_run p),
    if_pos hwritten, bind_of_ok (modify_run _ p), hhasher, if_neg (by decide), modify_run]
  obtain ⟨s, w⟩ := p
  dsimp only at hidx hwritten hhasher
  simp only [pure_run, ahead, ← hhasher, ← hwritten]

/-! ## an empty block in front -/

section Leading

variable (h : cfg.SameOutputs cfg') (hcrc : cfg'.crcSpans = (0, 0) :: cfg.crcSpans)
include h hcrc

/-- Behind the empty block both sinks write in step. -/
theorem lockstep_leading : Lockstep os cfg cfg' fun p q => q = ahead 1 p :=
  @lockstep_ahead os cfg cfg' [(0, 0)] h hcrc

variable (hne : cfg.crcSpans ≠ [])
include hne

/-- The first bytes. -/
theorem leading_first {rest : List UInt8} {n m : Nat} (hp : Untouched p)
    (hn : rest.length + cfg.crcSpans.length < n) (hm : rest.length + cfg'.crcSpans.length < m) :
    Alike (fun _ => Leading) Leading ((loop (writeStep os cfg) n rest).run p)
      ((loop (writeStep os cfg') m rest).run p) := by
  obtain ⟨n, rfl⟩ : ∃ k, n = k + 1 := Nat.exists_eq_succ_of_ne_zero (by omega)
  obtain ⟨m, rfl⟩ : ∃ k, m = k + 1 := Nat.exists_eq_succ_of_ne_zero (by omega)
  by_cases hrest : rest = []
  · rw [loop_done (by rw [writeStep, if_pos hrest]; rfl : (writeStep os cfg rest).run p = _),
      loop_done (by rw [writeStep, if_pos hrest]; rfl : (writeStep os cfg' rest).run p = _)]
    exact .ok (.inr ⟨rfl, hp⟩)
  · obtain ⟨block, hblock⟩ : ∃ block, cfg.crcSpans[p.1.crcIdx]? = some block := by
      rw [hp.1]
      exact ⟨_, List.getElem?_eq_getElem (List.length_pos_of_ne_nil hne)⟩
    have hempty : cfg'.crcSpans[p.1.crcIdx]? = some (0, 0) := by
      rw [hp.1, hcrc]
      rfl
    have hleft := writeStep_eq os hrest hblock
    have hright := writeStep_eq os hrest hempty
    rw [prepare_eq h] at hright
    rcases hprep : (prepare os cfg).run p with ⟨fileSize | e | _ | _, p₁⟩
    case ok =>
      have hready := prepare_ok hprep
      have hp₁ := hp.sameBlock (sameBlock_prepare.of_run hprep)
      rw [bind_of_ok hprep] at hleft hright
      rw [fill_empty rest hp₁ hready.room] at hright
      -- the pass that comes next in the one sink is the first of the other
      have hfirst : (loop (writeStep os cfg) (n + 1) rest).run p =
          (loop (writeStep os cfg) (n + 1) rest).run p₁ := by
        have hblock₁ : cfg.crcSpans[p₁.1.crcIdx]? = some block := by rw [hp₁.1, ← hp.1, hblock]
        rw [loop, bind_run, bind_run, hleft, writeStep_eq os hrest hblock₁,
          bind_of_ok hready.prepare]
      rw [hfirst, loop_next hright]
      refine ((lockstep_leading h hcrc).writeLoop rfl ?_ ?_).mono (fun _ _ _ => .inl)
        fun _ _ => .inl
      · omega
      · simp only [ahead]
        rw [hcrc, List.length_cons] at *
        omega
    all_goals
      have hp₁ := hp.sameBlock (sameBlock_prepare.of_run hprep)
      rw [bind_run, hprep] at hleft hright
      rw [loop, loop, bind_run, bind_run, hleft, hright]
    · exact .err (.inr ⟨rfl, hp₁⟩)
    · exact .panic (.inr ⟨rfl, hp₁⟩)
    · exact .hang (.inr ⟨rfl, hp₁⟩)

/-- From the start both sinks write in step, with the empty block still ahead of one. -/
theorem leading_inStep : Coder.InStep (sink os cfg) (sink os cfg') Leading := by
  refine .of_write ?_ ?_
  · rintro buf p q (rfl | ⟨rfl, hp⟩)
    · exact ((lockstep_leading h hcrc).write buf rfl).mono (fun _ _ _ => .inl) fun _ _ => .inl
    · refine .bind (leading_first h hcrc hne hp ?_ ?_) fun _ _ _ hR => .ok hR
      · omega
      · omega
  · rintro p q (rfl | ⟨rfl, hp⟩)
    · exact ((lockstep_leading h hcrc).flushes p _ rfl).mono (fun _ _ _ => .inl) fun _ _ => .inl
    · have hsame : SameBlock q ((flush os).run q).2 := by
        rw [flush, bind_of_ok (self_run q)]
        split
        · exact ⟨rfl, rfl, rfl⟩
        · exact ⟨rfl, rfl, rfl⟩
      rcases hrun : (flush os).run q with ⟨u | e | _ | _, q'⟩
      all_goals
        simp only [sink, hrun] at hsame ⊢
      · exact .ok (.inr ⟨rfl, hp.sameBlock hsame⟩)
      · exact .err (.inr ⟨rfl, hp.sameBlock hsame⟩)
      · exact .panic (.inr ⟨rfl, hp.sameBlock hsame⟩)
      · exact .hang (.inr ⟨rfl, hp.sameBlock hsame⟩)

/-- Both sinks finish alike. -/
theorem leading_finish (hpq : Leading p q) :
    Alike (fun _ => Leading) Leading ((finish os cfg).run p) ((finish os cfg').run q) := by
  rcases hpq with rfl | ⟨rfl, hp⟩
  · exact ((lockstep_leading h hcrc).finish rfl).mono (fun _ _ _ => .inl) fun _ _ => .inl
  · rw [finish, finish, advanceFullFiles_eq h, bind_run, bind_run]
    rcases hadv : (mapErr EggError.io (advanceFullFiles os cfg)).run q with ⟨u | e | _ | _, q₁⟩
    case ok =>
      have hp₁ := hp.sameBlock (sameBlock_advanceFullFiles.mapErr.of_run hadv)
      have hpos := List.length_pos_of_ne_nil hne
      have hpos' : 0 < cfg'.crcSpans.length := by
        rw [hcrc]
        exact Nat.succ_pos _
      simp only
      rw [bind_of_ok (mapErr_of_ok (self_run q₁)), if_pos (.inr (.inl (by rw [hp₁.1]; omega))),
        bind_of_ok (mapErr_of_ok (self_run q₁)), if_pos (.inr (.inl (by rw [hp₁.1]; omega)))]
      exact .err (.inr ⟨rfl, hp₁⟩)
    all_goals
      have hp₁ := hp.sameBlock (sameBlock_advanceFullFiles.mapErr.of_run hadv)
    · exact .err (.inr ⟨rfl, hp₁⟩)
    · exact .panic (.inr ⟨rfl, hp₁⟩)
    · exact .hang (.inr ⟨rfl, hp₁⟩)

/-- **An empty block in front changes nothing**, whatever is decompressed into
the sink. -/
theorem leading_decompressInto (decode : Decode Unit) (stream : List UInt8) (w : World) :
    Alike (fun _ => Leading) Leading ((decompressInto os cfg decode stream).run (.new, w))
      ((decompressInto os cfg' decode stream).run (.new, w)) :=
  decompressInto_alike (leading_inStep h hcrc hne) (fun _ _ => leading_finish h hcrc hne) decode
    stream (.inr ⟨rfl, rfl, rfl, rfl⟩)

end Leading

end SolidSink

end Unegg
