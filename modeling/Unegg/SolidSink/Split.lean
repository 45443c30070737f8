import Unegg.Effects.Bytewise
import Unegg.SolidSink.Leading
import Unegg.SolidSink.Together

/-!
# Unegg.SolidSink.Split

Cutting what is written to the sink.

When every call succeeds, one `write` of two byte strings and a `write` of each
end alike (`write_append`).  The passes are the same up to the cut, which can
fall into the middle of a chunk: there the one sink writes the chunk at once and
the other in two parts, between which nothing is advanced, opened or compared
(`fill_split`).
-/

namespace Unegg

open Prog Run Crc32

namespace SolidSink

variable {os : Os} {cfg : SinkConfig} {p q : SolidSink × World}

/-- The same sink, and the same events but for the cuts. -/
def SameButCuts (p q : SolidSink × World) : Prop := p.1 = q.1 ∧ SameBytes p.2 q.2

theorem SameButCuts.refl (p : SolidSink × World) : SameButCuts p p := ⟨rfl, rfl⟩

instance : IsTrans (SolidSink × World) SameButCuts where
  trans _ _ _ h h' := ⟨h.1.trans h'.1, h.2.trans h'.2⟩

/-! ## sinks in step -/

section Lockstep

variable (hos : os.Succeeds)
include hos

theorem createParent_sameBytes (path : Path) {w w' : World} (h : SameBytes w w') :
    Alike (fun _ => SameBytes) SameBytes ((os.createParent path).run w)
      ((os.createParent path).run w') := by
  rw [Os.createParent]
  split
  · rw [hos.mkdirAll_run, hos.mkdirAll_run]
    exact .ok (h.append _)
  · exact .ok h

theorem openOutput_sameButCuts (entry : EggFileEntry) (h : SameButCuts p q) :
    Alike (fun _ => SameButCuts) SameButCuts ((openOutput os cfg entry).run p)
      ((openOutput os cfg entry).run q) := by
  obtain ⟨s, w⟩ := p
  obtain ⟨_, w'⟩ := q
  obtain ⟨rfl, hw⟩ := h
  rw [openOutput]
  split
  · exact .ok ⟨rfl, hw.append _⟩
  · cases (safeJoin cfg.destDir entry.fileName).mapError fun e =>
      (⟨.invalidData, e.toString⟩ : IoError) with
    | error e => exact .err ⟨rfl, hw⟩
    | ok path =>
        rw [Run.ofExcept, pure_bind]
        have hcall : Alike (fun _ => SameButCuts) SameButCuts
            ((call (os.createParent path)).run (s, w))
            ((call (os.createParent path)).run (s, w')) := by
          simp only [call, Run.zoom]
          have hparent := createParent_sameBytes hos path hw
          generalize (os.createParent path).run w = x at hparent
          generalize (os.createParent path).run w' = y at hparent
          cases hparent with
          | ok h => exact .ok ⟨rfl, h⟩
          | err h => exact .err ⟨rfl, h⟩
          | panic h => exact .panic ⟨rfl, h⟩
          | hang h => exact .hang ⟨rfl, h⟩
        refine .bind hcall ?_
        rintro _ ⟨s₁, w₁⟩ ⟨_, w₁'⟩ ⟨rfl, hw₁⟩
        rw [bind_of_ok (call_of_ok (hos.createFile_run path w₁)),
          bind_of_ok (call_of_ok (hos.createFile_run path w₁'))]
        exact .ok ⟨rfl, hw₁.append _⟩

/-- A chunk is counted in, and its bytes are written. -/
theorem writeChunk_run (chunk : List UInt8) (p : SolidSink × World) :
    ∃ w, (writeChunk os chunk).run p = (.ok (), (counting p.1 chunk, w)) ∧
      bytewise w = bytewise p.2 ++
        p.1.writer.toList.flatMap fun t => chunk.map fun b => .write t [b] := by
  obtain ⟨w, hwrite⟩ := hos.writeTo_total p.1.writer chunk p.2
  refine ⟨w, ?_, bytewise_writeTo hwrite⟩
  rw [writeChunk, bind_of_ok (modify_run _ p), bind_of_ok (self_run _),
    bind_of_ok (call_of_ok (by exact hwrite))]
  rfl

theorem lockstep_sameButCuts : Lockstep os cfg cfg SameButCuts where
  fileSpans := rfl
  counters := fun p q h => by
    rw [h.1]
    exact .refl _
  crcSpan := fun p q h => by rw [h.1]
  lastBlock := fun p q h => by rw [h.1]
  opens := by
    rintro ⟨s, w⟩ ⟨_, w'⟩ ⟨rfl, hw⟩ _ _
    rw [openAt]
    split
    · exact .panic ⟨rfl, hw⟩
    · split
      · exact openOutput_sameButCuts hos _ ⟨rfl, hw⟩
      · exact .ok ⟨rfl, hw⟩
  closes := fun p q h _ => ⟨by rw [h.1], h.2⟩
  writes := by
    rintro ⟨s, w⟩ ⟨_, w'⟩ chunk ⟨rfl, hw⟩ _
    obtain ⟨w₁, hrun, hbytes⟩ := writeChunk_run hos chunk (s, w)
    obtain ⟨w₁', hrun', hbytes'⟩ := writeChunk_run hos chunk (s, w')
    rw [hrun, hrun']
    refine .ok ⟨rfl, ?_⟩
    change bytewise w₁ = bytewise w₁'
    rw [hbytes, hbytes']
    exact congrArg (· ++ _) hw
  rehashes := fun p q h => ⟨by rw [h.1], h.2⟩
  passes := fun p q h => ⟨by rw [h.1], h.2⟩
  flushes := fun p q h => by
    rw [flush_run hos, flush_run hos]
    exact .ok h

end Lockstep

/-! ## one pass -/

theorem counting_counting (s : SolidSink) (a b : List UInt8) :
    counting (counting s a) b = counting s (a ++ b) := by
  simp [counting, Nat.add_assoc]

/-- What is still to be written to the file and the block. -/
def room (fileSize crcSize : Nat) (s : SolidSink) : Nat :=
  min (fileSize - s.fileWritten) (crcSize - s.crcWritten)

variable {a b rest : List UInt8} {block : Nat × UInt32} {fileSize : Nat}

/-- A pass fills the file and the block as far as the buffer goes. -/
theorem fill_eq (os : Os) (rest : List UInt8) (block : Nat × UInt32) (hp : Ready cfg fileSize p)
    (hle : p.1.crcWritten ≤ block.1) : (fill os rest block fileSize).run p = (do
      writeChunk os (rest.take (room fileSize block.1 p.1))
      finishBlock block.1 block.2
      return .next (rest.drop (room fileSize block.1 p.1)) : Method _).run p := by
  have hroom := hp.room
  have htake : rest.take (min (min rest.length (min (fileSize - p.1.fileWritten) rest.length))
      (min (block.1 - p.1.crcWritten) rest.length)) =
        rest.take (room fileSize block.1 p.1) := by
    rw [room, List.take_eq_take_iff]
    omega
  have hdrop : rest.drop (min (min rest.length (min (fileSize - p.1.fileWritten) rest.length))
      (min (block.1 - p.1.crcWritten) rest.length)) =
        rest.drop (room fileSize block.1 p.1) := by
    rw [room, List.drop_eq_drop_iff]
    omega
  rw [fill, bind_of_ok (self_run p), if_neg (by omega)]
  simp only [htake, hdrop]

/-- A pass that ends before the cut. -/
theorem fill_before (hp : Ready cfg fileSize p) (hle : p.1.crcWritten ≤ block.1)
    (hroom : room fileSize block.1 p.1 ≤ a.length) (b : List UInt8) :
    (fill os (a ++ b) block fileSize).run p = (do
      match ← fill os a block fileSize with
      | .next a => return .next (a ++ b)
      | .done u => return .done u : Method _).run p := by
  rw [fill_eq os _ _ hp hle, bind_run, bind_run, fill_eq os _ _ hp hle,
    List.take_append_of_le_length hroom, List.drop_append_of_le_length hroom, bind_run]
  rcases (writeChunk os (a.take (room fileSize block.1 p.1))).run p with ⟨_ | e | _ | _, p₁⟩
  case ok =>
    simp only
    rw [bind_run, bind_run]
    rcases (finishBlock block.1 block.2).run p₁ with ⟨_ | e | _ | _, p₂⟩ <;> rfl
  all_goals rfl

/-- A pass that goes on behind the cut. -/
theorem fill_split (hos : os.Succeeds) (hp : Ready cfg fileSize p)
    (hle : p.1.crcWritten ≤ block.1) (hroom : a.length < room fileSize block.1 p.1)
    (b : List UInt8) : ∃ w, (fill os a block fileSize).run p =
        (.ok (.next []), (counting p.1 a, w)) ∧
      Ready cfg fileSize (counting p.1 a, w) ∧
      Alike (fun _ => SameButCuts) SameButCuts ((fill os (a ++ b) block fileSize).run p)
        ((fill os b block fileSize).run (counting p.1 a, w)) := by
  obtain ⟨w, hrun, hbytes⟩ := writeChunk_run hos a p
  have hmore : a.length < fileSize - p.1.fileWritten ∧ a.length < block.1 - p.1.crcWritten :=
    lt_min_iff.mp hroom
  have hready : Ready cfg fileSize (counting p.1 a, w) := by
    refine ⟨hp.span, hp.fileOpen, ?_⟩
    simp only [counting]
    omega
  have hle' : (counting p.1 a).crcWritten ≤ block.1 := by
    simp only [counting]
    omega
  refine ⟨w, ?_, hready, ?_⟩
  · -- the block is not full, so nothing is compared
    rw [fill_eq os _ _ hp hle, List.take_of_length_le hroom.le, List.drop_of_length_le hroom.le,
      bind_of_ok hrun, finishBlock, bind_run, bind_of_ok (self_run _), if_neg, pure_run]
    · rfl
    · simp only [counting]
      omega
  · have hrest : room fileSize block.1 (counting p.1 a) = room fileSize block.1 p.1 - a.length := by
      simp only [room, counting]
      omega
    rw [fill_eq os _ _ hp hle, fill_eq os _ _ hready hle', hrest, List.take_append,
      List.take_of_length_le hroom.le, List.drop_append, List.drop_of_length_le hroom.le,
      List.nil_append]
    generalize b.take (room fileSize block.1 p.1 - a.length) = c
    obtain ⟨w₁, hrun₁, hbytes₁⟩ := writeChunk_run hos (a ++ c) p
    obtain ⟨w₂, hrun₂, hbytes₂⟩ := writeChunk_run hos c (counting p.1 a, w)
    rw [bind_of_ok hrun₁, bind_of_ok hrun₂]
    have hstep : Lockstep os cfg cfg SameButCuts := lockstep_sameButCuts hos
    refine .bind (hstep.finishBlock _ _ ⟨?_, ?_⟩) fun _ _ _ h => .ok h
    · exact (counting_counting p.1 a c).symm
    · change bytewise w₁ = bytewise w₂
      rw [hbytes₁, hbytes₂, hbytes]
      cases h : p.1.writer with
      | none => simp [counting, h]
      | some t => simp [counting, h]

/-! ## whole buffers -/

/-- A pass gets a file and a block ready, or fails whatever is to be written. -/
theorem writeStep_ready_or {rest' : List UInt8} (hne : rest ≠ []) (hne' : rest' ≠ []) :
    (∃ block fileSize q, cfg.crcSpans[p.1.crcIdx]? = some block ∧
      (prepare os cfg).run p = (.ok fileSize, q)) ∨
    ((writeStep os cfg rest).run p = (writeStep os cfg rest').run p ∧
      ∀ f, ((writeStep os cfg rest).run p).1 ≠ .ok f) := by
  cases hblock : cfg.crcSpans[p.1.crcIdx]? with
  | none =>
      refine .inr ?_
      rw [writeStep, writeStep, if_neg hne, if_neg hne', bind_run, bind_run]
      rcases hadv : (advanceFullFiles os cfg).run p with ⟨u | e | _ | _, q⟩
      case ok =>
        have hidx := (sameBlock_advanceFullFiles.of_run hadv).1
        simp only
        rw [bind_of_ok (self_run q), bind_of_ok (self_run q), hidx, hblock]
        cases cfg.fileSpans[q.1.fileIdx]? <;> exact ⟨rfl, by simp⟩
      all_goals exact ⟨rfl, by simp⟩
  | some block =>
      rcases hprep : (prepare os cfg).run p with ⟨fileSize | e | _ | _, q⟩
      case ok => exact .inl ⟨block, fileSize, q, rfl, rfl⟩
      all_goals
        rw [writeStep_eq os hne hblock, writeStep_eq os hne' hblock, bind_run, bind_run, hprep]
        exact .inr ⟨rfl, by simp⟩

theorem Ready.writeStep (hready : Ready cfg fileSize p) (hne : rest ≠ [])
    (hblock : cfg.crcSpans[p.1.crcIdx]? = some block) :
    (writeStep os cfg rest).run p = (fill os rest block fileSize).run p := by
  rw [writeStep_eq os hne hblock, bind_of_ok hready.prepare]

/-- A file that was made ready need not be again. -/
theorem loop_prepare (hprep : (prepare os cfg).run p = (.ok fileSize, q))
    (hblock : cfg.crcSpans[p.1.crcIdx]? = some block) (hne : rest ≠ []) (n : Nat) :
    (loop (writeStep os cfg) (n + 1) rest).run p =
      (loop (writeStep os cfg) (n + 1) rest).run q := by
  have hidx := (sameBlock_prepare.of_run hprep).1
  rw [loop, bind_run, bind_run, writeStep_eq os hne hblock, bind_of_ok hprep,
    (prepare_ok hprep).writeStep hne (hidx ▸ hblock)]

/-- A loop over what is left of a buffer, in enough passes. -/
def Enough (cfg : SinkConfig) (rest : List UInt8) (p : SolidSink × World) (n : Nat) : Prop :=
  rest.length + (cfg.crcSpans.length - p.1.crcIdx) < n

theorem fill_next {f : Prog.Flow (List UInt8) Unit}
    (h : (fill os rest block fileSize).run p = (.ok f, q)) : ∃ rest', f = .next rest' := by
  rw [fill, bind_of_ok (self_run p)] at h
  split at h
  · simp at h
  · obtain ⟨_, p₁, -, h⟩ := bind_ok.mp h
    obtain ⟨_, p₂, -, h⟩ := bind_ok.mp h
    simp only [pure_run, Prod.mk.injEq, Outcome.ok.injEq] at h
    exact ⟨_, h.1.symm⟩

/-- The last pass over the first buffer, and what follows. -/
theorem writeLoop_split (hos : os.Succeeds) {n m k : Nat} (hready : Ready cfg fileSize p)
    (hblock : cfg.crcSpans[p.1.crcIdx]? = some block) (hle : p.1.crcWritten ≤ block.1)
    (hroom : a.length < room fileSize block.1 p.1) (hb : b ≠ []) (ha : a ≠ [])
    (hn : Enough cfg (a ++ b) p (n + 1)) (hm : Enough cfg a p (m + 1))
    (hk : Enough cfg b p k) :
    Alike (fun _ => SameButCuts) SameButCuts ((loop (writeStep os cfg) (n + 1) (a ++ b)).run p)
      ((loop (writeStep os cfg) (m + 1) a >>= fun _ => loop (writeStep os cfg) k b).run p) := by
  obtain ⟨k, rfl⟩ : ∃ j, k = j + 1 := Nat.exists_eq_succ_of_ne_zero (by
    rw [Enough] at hk
    omega)
  obtain ⟨m, rfl⟩ : ∃ j, m = j + 1 := Nat.exists_eq_succ_of_ne_zero (by
    have hpos := List.length_pos_of_ne_nil ha
    rw [Enough] at hm
    omega)
  obtain ⟨w, hfirst, hready', hsplit⟩ := fill_split hos hready hle hroom b
  have hleft : (writeStep os cfg (a ++ b)).run p = _ :=
    hready.writeStep (List.append_ne_nil_of_left_ne_nil ha b) hblock
  have hright : (writeStep os cfg b).run (counting p.1 a, w) = _ := hready'.writeStep hb hblock
  have hloop : (loop (writeStep os cfg) (m + 1 + 1) a).run p = (.ok (), (counting p.1 a, w)) := by
    rw [loop_next ((hready.writeStep ha hblock).trans hfirst)]
    exact loop_done rfl
  rw [bind_of_ok hloop, loop, loop, bind_run, bind_run]
  rw [← hleft, ← hright] at hsplit
  rcases hwhole : (writeStep os cfg (a ++ b)).run p with ⟨o, q⟩
  rcases hpart : (writeStep os cfg b).run (counting p.1 a, w) with ⟨o', q'⟩
  rw [hwhole, hpart] at hsplit
  obtain rfl : o = o' := hsplit.outcome
  have hR := hsplit.related
  rcases o with f | e | _ | _
  · obtain ⟨rest, rfl⟩ := fill_next (hleft.symm.trans hwhole)
    have hfewer := writeStep_next hwhole
    have hfewer' := writeStep_next hpart
    rw [Enough] at hn hk
    have hidx : (counting p.1 a).crcIdx = p.1.crcIdx := rfl
    refine (lockstep_sameButCuts hos).writeLoop hR ?_ ?_
    · omega
    · dsimp only at hfewer'
      omega
  · exact .err hR
  · exact .panic hR
  · exact .hang hR

theorem writeLoop_append (hos : os.Succeeds) {n m k : Nat} (hn : Enough cfg (a ++ b) p n)
    (hm : Enough cfg a p m) (hk : b.length + cfg.crcSpans.length < k) :
    Alike (fun _ => SameButCuts) SameButCuts ((loop (writeStep os cfg) n (a ++ b)).run p)
      ((loop (writeStep os cfg) m a >>= fun _ => loop (writeStep os cfg) k b).run p) := by
  have hstep : Lockstep os cfg cfg SameButCuts := lockstep_sameButCuts hos
  have hnil : ∀ q, (writeStep os cfg []).run q = (.ok (.done ()), q) := fun _ => rfl
  have hk' : ∀ q, Enough cfg b q k := fun q => by
    rw [Enough]
    omega
  by_cases hb : b = []
  · -- there is nothing behind the cut
    subst hb
    obtain ⟨k, rfl⟩ : ∃ j, k = j + 1 := Nat.exists_eq_succ_of_ne_zero (by omega)
    have hright : loop (writeStep os cfg) m a >>= (fun _ => loop (writeStep os cfg) (k + 1) []) =
        loop (writeStep os cfg) m a := bind_pure _
    rw [hright, List.append_nil]
    rw [List.append_nil] at hn
    exact hstep.writeLoop (.refl p) hn hm
  induction m generalizing a p n with
  | zero => simp [Enough] at hm
  | succ m ih =>
      obtain ⟨n, rfl⟩ : ∃ j, n = j + 1 := Nat.exists_eq_succ_of_ne_zero (by
        rw [Enough] at hn
        omega)
      by_cases ha : a = []
      · subst ha
        rw [bind_of_ok (loop_done (hnil p))]
        exact hstep.writeLoop (.refl p) hn (hk' p)
      have hab : a ++ b ≠ [] := List.append_ne_nil_of_left_ne_nil ha b
      rcases @writeStep_ready_or os cfg p _ _ hab ha with
        ⟨block, fileSize, q, hblock, hprep⟩ | ⟨heq, hfails⟩
      · have hready := prepare_ok hprep
        have hidx := (sameBlock_prepare.of_run hprep).1
        rw [Enough, ← hidx] at hn hm
        rw [loop_prepare hprep hblock hab, bind_run, loop_prepare hprep hblock ha, ← bind_run]
        rw [← hidx] at hblock
        have hwhole : (writeStep os cfg (a ++ b)).run q = _ := hready.writeStep hab hblock
        have hpart : (writeStep os cfg a).run q = _ := hready.writeStep ha hblock
        by_cases hle : q.1.crcWritten ≤ block.1
        swap
        · have hpanic : ∀ rest, (fill os rest block fileSize).run q = (.panic, q) := fun rest => by
            rw [fill, bind_of_ok (self_run q), if_pos (.inr (by omega)), panic_run]
          rw [loop, loop, bind_assoc, bind_run, bind_run, hwhole, hpart, hpanic, hpanic]
          exact .panic (.refl q)
        by_cases hroom : room fileSize block.1 q.1 ≤ a.length
        · -- the pass ends before the cut, and leaves the buffers one behind the other
          have hbefore : (fill os (a ++ b) block fileSize).run q = _ :=
            fill_before hready hle hroom b
          rw [loop, loop, bind_assoc, bind_run, bind_run, hpart, hwhole, hbefore, bind_run]
          rcases hfill : (fill os a block fileSize).run q with ⟨f | e | _ | _, r⟩
          · obtain ⟨rest, rfl⟩ := fill_next hfill
            rw [hfill] at hpart
            rw [hbefore, bind_of_ok hfill] at hwhole
            have hfewer := writeStep_next hpart
            have hfewer' := writeStep_next hwhole
            exact ih (by rw [Enough]; omega) (by rw [Enough]; omega)
          · exact .err (.refl r)
          · exact .panic (.refl r)
          · exact .hang (.refl r)
        · exact writeLoop_split hos hready hblock hle (by omega) hb ha hn hm (hk' q)
      · rw [loop, loop, bind_assoc, bind_run, bind_run, ← heq]
        rcases hrun : (writeStep os cfg (a ++ b)).run p with ⟨f | e | _ | _, q⟩
        · rw [hrun] at hfails
          exact absurd rfl (hfails f)
        · exact .err (.refl q)
        · exact .panic (.refl q)
        · exact .hang (.refl q)

/-- A `write` of one buffer after the other. -/
def writeBoth (os : Os) (cfg : SinkConfig) (a b : List UInt8) : Method Nat := do
  let n ← write os cfg a
  let m ← write os cfg b
  return n + m

theorem write_append_alike (hos : os.Succeeds) (a b : List UInt8) (p : SolidSink × World) :
    Alike (fun _ => SameButCuts) SameButCuts ((write os cfg (a ++ b)).run p)
      ((writeBoth os cfg a b).run p) := by
  have hboth : writeBoth os cfg a b = (do
      loop (writeStep os cfg) (a.length + cfg.crcSpans.length + 1) a
      loop (writeStep os cfg) (b.length + cfg.crcSpans.length + 1) b
      return (a ++ b).length) := by
    simp only [writeBoth, write, bind_assoc, pure_bind, List.length_append]
  rw [hboth, write, ← bind_assoc]
  refine .bind (writeLoop_append hos ?_ ?_ (by omega)) fun _ _ _ h => .ok h
  · rw [Enough]
    omega
  · rw [Enough]
    omega

/-- **One write or two**: when the file operations succeed, a write of two byte
strings and a write of each after the other end in the same way, in the same
sink, with the same files created and the same bytes in each, also where they
fail. -/
theorem write_append (hos : os.Succeeds) (cfg : SinkConfig) (a b : List UInt8)
    (p : SolidSink × World) :
    let whole := (write os cfg (a ++ b)).run p
    let parts := (writeBoth os cfg a b).run p
    whole.1 = parts.1 ∧ whole.2.1 = parts.2.1 ∧ bytewise whole.2.2 = bytewise parts.2.2 ∧
      files whole.2.2 = files parts.2.2 ∧ written whole.2.2 = written parts.2.2 := by
  intro whole parts
  have halike : Alike (fun _ => SameButCuts) SameButCuts whole parts :=
    write_append_alike hos a b p
  obtain ⟨hsink, hbytes⟩ := halike.related
  exact ⟨halike.outcome, hsink, hbytes, hbytes.files, hbytes.written⟩

/-- Files of two and one bytes, the first of them in a block of its own. -/
def cutSample : SinkConfig where
  fileSpans := [(0, 2), (1, 0), (2, 1)]
  crcSpans := [(2, 0x9E83486D), (1, 0)]
  entries := [⟨"a", 0, 2, [], none, none, 0, none⟩, ⟨"b", 1, 0, [], none, none, 0, none⟩,
    ⟨"c", 2, 1, [], none, none, 0, none⟩]
  destDir := []
  filter := none
  pipeMode := false

/-- Three bytes, cut inside the first file; the second block is not as declared. -/
theorem write_append_sample :
    let whole := (write .obliging cutSample ([0x61] ++ [0x62, 0x63])).run (.new, [])
    let parts := (writeBoth .obliging cutSample [0x61] [0x62, 0x63]).run (.new, [])
    whole.1 = parts.1 ∧ whole.1 = .err ⟨.invalidData, "solid block CRC mismatch"⟩ ∧
      files whole.2.2 = files parts.2.2 ∧ whole.2.2 ≠ parts.2.2 := by
  have h := write_append Os.obliging_succeeds cutSample [0x61] [0x62, 0x63] (.new, [])
  exact ⟨h.1, by decide +kernel, h.2.2.2.1, by decide +kernel⟩

/-- A buffer written for its effect. -/
def writeBuffer (os : Os) (cfg : SinkConfig) (buf : List UInt8) : Method Unit := do
  let _ ← write os cfg buf
  return ()

/-- **Any cut will do**: what was written in any number of buffers might as well
have been written in one. -/
theorem writeBuffer_flatten (hos : os.Succeeds) (bufs : List (List UInt8))
    (h : SameButCuts p q) :
    Alike (fun _ => SameButCuts) SameButCuts ((writeBuffer os cfg bufs.flatten).run p)
      ((forEach (writeBuffer os cfg) bufs).run q) := by
  have hstep : Lockstep os cfg cfg SameButCuts := lockstep_sameButCuts hos
  induction bufs generalizing p q with
  | nil => exact .ok h
  | cons buf bufs ih =>
      have hsplit := @write_append_alike os cfg hos buf bufs.flatten p
      have htail : Alike (fun _ => SameButCuts) SameButCuts
          ((writeBuffer os cfg (buf :: bufs).flatten).run p)
          ((writeBoth os cfg buf bufs.flatten >>= fun _ => (pure () : Method Unit)).run p) :=
        .bind hsplit fun _ _ _ h => .ok h
      refine htail.trans ?_
      rw [writeBoth, bind_assoc, forEach, writeBuffer, bind_assoc]
      refine .bind (hstep.write buf h) fun n p₁ q₁ h₁ => ?_
      rw [bind_assoc]
      exact ih h₁

end SolidSink

end Unegg
