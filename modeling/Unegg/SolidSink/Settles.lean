import Unegg.Decompress.Settles
import Unegg.Effects.Output
import Unegg.SolidSink.Iterations
import Unegg.SolidSink.Lockstep

/-!
# Unegg.SolidSink.Settles

The sink comes back from every call, those behind a failed one included.

That a pass of `write` has room for its subtractions (`HasRoom`) holds after a
failed call too: nothing that can fail stands between two counters that belong
together.  With an entry for every file span the panic that is left
(`MissingEntry`) is gone, and the blocks that are not passed bound what the sink
still takes (`unchecked`): it pays for every byte out of them (`pays_sink`).
-/

namespace Unegg

open Prog Run

namespace SolidSink

/-- The bytes of the blocks that have not been checked yet. -/
def unchecked (cfg : SinkConfig) (p : SolidSink × World) : Nat :=
  ((cfg.crcSpans.drop p.1.crcIdx).map Prod.fst).sum - p.1.crcWritten

/-- Every file span belongs to an entry. -/
def EntriesFound (cfg : SinkConfig) : Prop := ∀ span ∈ cfg.fileSpans, span.1 < cfg.entries.length

/-- The file and the block that are being written stay the same. -/
structure Stays (p q : SolidSink × World) : Prop where
  fileIdx : q.1.fileIdx = p.1.fileIdx
  fileWritten : q.1.fileWritten = p.1.fileWritten
  block : SameBlock p q

variable {os : Os} {cfg : SinkConfig} {p q : SolidSink × World}

theorem SameSpan.stays (h : SameSpan p q) : Stays p q :=
  ⟨h.1.fileIdx, h.1.fileWritten, h.sameBlock⟩

theorem Stays.hasRoom (h : Stays p q) (hroom : HasRoom cfg p.1) : HasRoom cfg q.1 where
  file := by
    rw [h.fileIdx, h.fileWritten]
    exact hroom.file
  block := by
    rw [h.block.1, h.block.2.1]
    exact hroom.block

theorem SameBlock.unchecked_eq (h : SameBlock p q) : unchecked cfg q = unchecked cfg p := by
  rw [unchecked, unchecked, h.1, h.2.1]

/-- With all entries found there is no panic. -/
theorem EntriesFound.returned {ε α : Type} {r : Outcome ε α × (SolidSink × World)}
    (hentries : EntriesFound cfg) (h : ReturnsOr (MissingEntry cfg) r) : r.1.returned := by
  rcases h with h | ⟨-, span, hspan, hentry⟩
  · exact h
  · have hlt := hentries span (List.mem_of_getElem? hspan)
    rw [List.getElem?_eq_none_iff] at hentry
    omega

/-! ## the parts of a pass -/

theorem ensureFileOpen_endsIn (hentries : EntriesFound cfg) {span : Nat × Nat}
    (hspan : cfg.fileSpans[p.1.fileIdx]? = some span) :
    EndsIn (fun _ q => Stays p q) (Stays p) ((ensureFileOpen os cfg).run p) := by
  have hends : ((ensureFileOpen os cfg).run p).1.returned :=
    hentries.returned (ensureFileOpen_returnsOr hspan)
  refine .of_returned hends ?_
  rw [ensureFileOpen_run]
  split
  · exact ⟨rfl, rfl, rfl, rfl, rfl⟩
  · have hopened : SameSpan (opening p.1, p.2) ((openAt os cfg p.1.fileIdx).run (opening p.1, p.2)).2 :=
      sameSpan_openAt p.1.fileIdx _
    exact ⟨hopened.stays.fileIdx, hopened.stays.fileWritten, hopened.stays.block⟩

/-- Behind `advance_full_files` the current file wants bytes, if there is one. -/
theorem advanceFullFiles_endsIn (hentries : EntriesFound cfg) (hroom : HasRoom cfg p.1) :
    EndsIn (fun _ q => HasRoom cfg q.1 ∧ SameBlock p q ∧
        ∀ span ∈ cfg.fileSpans[q.1.fileIdx]?, q.1.fileWritten < span.2)
      (fun q => HasRoom cfg q.1 ∧ SameBlock p q) ((advanceFullFiles os cfg).run p) := by
  refine .loop (I := fun _ q => HasRoom cfg q.1 ∧ SameBlock p q)
    (fun _ q => cfg.fileSpans.length - q.1.fileIdx) ?_ ⟨hroom, rfl, rfl, rfl⟩
    (Nat.lt_succ_of_le (Nat.sub_le _ _))
  rintro u q ⟨hroom, hblock⟩
  rw [advanceStep, bind_of_ok (self_run q)]
  cases hspan : cfg.fileSpans[q.1.fileIdx]? with
  | none => exact .ok ⟨hroom, hblock, by simp [hspan]⟩
  | some span =>
      dsimp only
      split
      · next hlt => exact .ok ⟨hroom, hblock, by simpa [hspan] using hlt⟩
      · refine .bind ((ensureFileOpen_endsIn hentries hspan).mono (fun _ _ h => h) fun r h =>
          ⟨h.hasRoom hroom, IsTrans.trans _ _ _ hblock h.block⟩) fun _ r hstays => .ok ?_
        have hroom' := hstays.hasRoom hroom
        have hlt := (List.getElem?_eq_some_iff.mp hspan).1
        refine ⟨⟨⟨fun _ _ => Nat.zero_le _, hroom'.block⟩, ?_⟩, ?_⟩
        · exact IsTrans.trans _ _ _ hblock hstays.block
        · change cfg.fileSpans.length - (r.1.fileIdx + 1) < _
          rw [hstays.fileIdx]
          omega

/-- A chunk is counted when it has been written. -/
theorem writeChunk_endsIn (chunk : List UInt8) :
    EndsIn (fun _ q => q.1.fileIdx = p.1.fileIdx ∧
        q.1.fileWritten = p.1.fileWritten + chunk.length ∧ q.1.crcIdx = p.1.crcIdx ∧
        q.1.crcWritten = p.1.crcWritten + chunk.length)
      (fun q => q.1.fileIdx = p.1.fileIdx ∧ q.1.fileWritten = p.1.fileWritten ∧
        q.1.crcIdx = p.1.crcIdx ∧ q.1.crcWritten = p.1.crcWritten)
      ((writeChunk os chunk).run p) := by
  have hcall : EndsIn (fun _ _ => True) (fun _ => True) ((os.writeTo p.1.writer chunk).run p.2) :=
    .of_returned (ends_writeTo os p.1.writer chunk p.2) trivial
  rw [writeChunk, bind_of_ok (modify_run _ p), bind_of_ok (self_run _), bind_run, call, Run.zoom]
  dsimp only
  generalize (os.writeTo p.1.writer chunk).run p.2 = r at hcall
  cases hcall with
  | ok => exact .ok ⟨rfl, rfl, rfl, rfl⟩
  | err => exact .err ⟨rfl, rfl, rfl, rfl⟩

/-- A block that is passed wants no more bytes than it had. -/
theorem unchecked_passed {block : Nat × UInt32} (hroom : HasRoom cfg p.1)
    (hblock : cfg.crcSpans[p.1.crcIdx]? = some block) :
    unchecked cfg p = block.1 - p.1.crcWritten + unchecked cfg (passing p.1, p.2) := by
  have hle := hroom.block block hblock
  obtain ⟨hlt, hget⟩ := List.getElem?_eq_some_iff.mp hblock
  rw [unchecked, unchecked, List.drop_eq_getElem_cons hlt, hget]
  simp only [passing, List.map_cons, List.sum_cons]
  omega

/-- The end of a block, when it is reached: the next one begins. -/
theorem finishBlock_endsIn {block : Nat × UInt32} (hroom : HasRoom cfg p.1)
    (hblock : cfg.crcSpans[p.1.crcIdx]? = some block) :
    EndsIn (fun _ q => HasRoom cfg q.1 ∧ unchecked cfg q ≤ unchecked cfg p ∧
        (p.1.crcWritten = block.1 ∧ q.1.crcIdx = p.1.crcIdx + 1 ∨
          p.1.crcWritten ≠ block.1 ∧ q.1.crcIdx = p.1.crcIdx))
      (fun q => HasRoom cfg q.1 ∧ unchecked cfg q ≤ unchecked cfg p)
      ((finishBlock block.1 block.2).run p) := by
  rw [finishBlock, bind_of_ok (self_run p)]
  split
  · next hfull =>
      rw [bind_of_ok (modify_run _ p)]
      split
      · exact .err ⟨⟨hroom.file, hroom.block⟩, le_rfl⟩
      · refine .ok ⟨⟨hroom.file, fun _ _ => Nat.zero_le _⟩, ?_, .inl ⟨hfull, rfl⟩⟩
        rw [unchecked_passed hroom hblock]
        exact Nat.le_add_left _ _
  · next hpart => exact .ok ⟨hroom, le_rfl, .inr ⟨hpart, rfl⟩⟩

/-- What a pass over `rest` has come to that started in `p`. -/
structure Passed (cfg : SinkConfig) (rest : List UInt8) (p : SolidSink × World)
    (rest' : List UInt8) (q : SolidSink × World) : Prop where
  hasRoom : HasRoom cfg q.1
  length_le : rest'.length ≤ rest.length
  paid : rest.length - rest'.length + unchecked cfg q ≤ unchecked cfg p
  falls : rest'.length + (cfg.crcSpans.length - q.1.crcIdx) <
    rest.length + (cfg.crcSpans.length - p.1.crcIdx)

theorem Passed.of_sameBlock {rest rest' : List UInt8} {p₁ : SolidSink × World}
    (hblock : SameBlock p p₁) (h : Passed cfg rest p₁ rest' q) : Passed cfg rest p rest' q where
  hasRoom := h.hasRoom
  length_le := h.length_le
  paid := hblock.unchecked_eq ▸ h.paid
  falls := hblock.1 ▸ h.falls

variable (os) in
/-- A pass behind its `advance_full_files`: it takes a byte, or passes a block. -/
theorem fill_endsIn {rest : List UInt8} {span : Nat × Nat} {block : Nat × UInt32}
    (hrest : rest ≠ []) (hroom : HasRoom cfg p.1) (hspan : cfg.fileSpans[p.1.fileIdx]? = some span)
    (hwants : p.1.fileWritten < span.2) (hblock : cfg.crcSpans[p.1.crcIdx]? = some block) :
    let fileNeed := min (span.2 - p.1.fileWritten) rest.length
    let crcNeed := min (block.1 - p.1.crcWritten) rest.length
    let take := min (min rest.length fileNeed) crcNeed
    EndsIn (fun _ q => Passed cfg rest p (rest.drop take) q)
      (fun q => HasRoom cfg q.1 ∧ unchecked cfg q ≤ unchecked cfg p)
      ((do
        writeChunk os (rest.take take)
        finishBlock block.1 block.2 : Method Unit).run p) := by
  intro fileNeed crcNeed take
  have hpos := List.length_pos_of_ne_nil hrest
  have hcrc := hroom.block block hblock
  have hlen : (rest.take take).length = take := by
    rw [List.length_take]
    omega
  refine .bind ((writeChunk_endsIn _).mono (fun _ _ h => h) fun q h => ?_) fun _ q h => ?_
  · obtain ⟨hfileIdx, hfileWritten, hcrcIdx, hcrcWritten⟩ := h
    refine ⟨⟨?_, ?_⟩, ?_⟩
    · rw [hfileIdx, hfileWritten]
      exact hroom.file
    · rw [hcrcIdx, hcrcWritten]
      exact hroom.block
    · rw [unchecked, unchecked, hcrcIdx, hcrcWritten]
  · obtain ⟨hfileIdx, hfileWritten, hcrcIdx, hcrcWritten⟩ := h
    rw [hlen] at hfileWritten hcrcWritten
    have hroom₁ : HasRoom cfg q.1 := by
      refine ⟨fun s hs => ?_, fun b hb => ?_⟩
      · rw [hfileIdx, hspan] at hs
        obtain rfl := Option.mem_some_iff.mp hs
        omega
      · rw [hcrcIdx, hblock] at hb
        obtain rfl := Option.mem_some_iff.mp hb
        omega
    have hblock₁ : cfg.crcSpans[q.1.crcIdx]? = some block := hcrcIdx ▸ hblock
    have hleft : take + unchecked cfg q ≤ unchecked cfg p := by
      have hpassed : unchecked cfg (passing q.1, q.2) = unchecked cfg (passing p.1, p.2) := by
        simp only [unchecked, passing, hcrcIdx]
      rw [unchecked_passed hroom hblock, unchecked_passed hroom₁ hblock₁, hpassed]
      omega
    refine (finishBlock_endsIn hroom₁ hblock₁).mono (fun _ r h => ?_) fun r h => ⟨h.1, by omega⟩
    obtain ⟨hroom₂, hunchecked, hpass⟩ := h
    refine ⟨hroom₂, ?_, ?_, ?_⟩
    all_goals
      rw [List.length_drop]
    · omega
    · omega
    · -- a pass that takes nothing stands at the end of a block
      have hlt := (List.getElem?_eq_some_iff.mp hblock).1
      rcases hpass with ⟨hfull, hnext⟩ | ⟨hpart, hsame⟩
      · omega
      · omega

/-- **One pass of `write`**, from any state that has room. -/
theorem writeStep_endsIn (hentries : EntriesFound cfg) (rest : List UInt8)
    (hroom : HasRoom cfg p.1) :
    EndsIn (fun f q => f.Meets (fun rest' => Passed cfg rest p rest' q)
        fun _ => rest = [] ∧ q = p)
      (fun q => HasRoom cfg q.1 ∧ unchecked cfg q ≤ unchecked cfg p)
      ((writeStep os cfg rest).run p) := by
  rw [writeStep]
  split
  · next hnil => exact .ok ⟨hnil, rfl⟩
  next hne =>
  refine .bind ((advanceFullFiles_endsIn hentries hroom).mono (fun _ _ h => h) fun q h =>
    ⟨h.1, h.2.unchecked_eq.le⟩) fun _ p₁ h => ?_
  obtain ⟨hroom₁, hblock₁, hwants⟩ := h
  rw [← hblock₁.unchecked_eq, bind_of_ok (self_run p₁)]
  cases hspan : cfg.fileSpans[p₁.1.fileIdx]? with
  | none => exact .err ⟨hroom₁, le_rfl⟩
  | some span =>
      cases hblock : cfg.crcSpans[p₁.1.crcIdx]? with
      | none => exact .err ⟨hroom₁, le_rfl⟩
      | some block =>
          refine .bind ((ensureFileOpen_endsIn hentries hspan).mono (fun _ _ h => h) fun q h =>
            ⟨h.hasRoom hroom₁, h.block.unchecked_eq.le⟩) fun _ p₂ h => ?_
          have hfile := hroom₁.file span hspan
          have hcrc := hroom₁.block block hblock
          rw [if_neg (by omega), ← bind_assoc]
          have hspan₂ : cfg.fileSpans[p₂.1.fileIdx]? = some span := h.fileIdx ▸ hspan
          have hblock₂ : cfg.crcSpans[p₂.1.crcIdx]? = some block := h.block.1 ▸ hblock
          have hwants₂ : p₂.1.fileWritten < span.2 := h.fileWritten ▸ hwants span hspan
          have hfill := fill_endsIn os hne (h.hasRoom hroom₁) hspan₂ hwants₂ hblock₂
          rw [h.fileWritten, h.block.2.1, h.block.unchecked_eq] at hfill
          refine .bind hfill fun _ q h' => .ok ?_
          exact (h'.of_sameBlock h.block).of_sameBlock hblock₁

/-! ## whole calls -/

variable (os) in
theorem flush_endsIn (p : SolidSink × World) :
    EndsIn (fun _ q => q.1 = p.1) (fun q => q.1 = p.1) ((flush os).run p) := by
  rw [flush, bind_of_ok (self_run p)]
  split
  · next t _ =>
      exact .of_returned (ends_call (ends_osFlush os t) p) rfl
  · exact .ok rfl

variable (os) in
/-- **The sink pays** for every byte, also behind a call that failed. -/
theorem pays_sink (hentries : EntriesFound cfg) :
    (sink os cfg).Pays (fun p => HasRoom cfg p.1) (unchecked cfg) where
  write := by
    intro buf p hroom
    refine .bind (Q := fun _ q => HasRoom cfg q.1 ∧ buf.length + unchecked cfg q ≤ unchecked cfg p)
      (.loop (I := fun rest q => HasRoom cfg q.1 ∧ rest.length ≤ buf.length ∧
        buf.length - rest.length + unchecked cfg q ≤ unchecked cfg p)
      (fun rest q => rest.length + (cfg.crcSpans.length - q.1.crcIdx)) ?_ ⟨hroom, le_rfl, by simp⟩
      (Nat.lt_succ_of_le (Nat.add_le_add_left (Nat.sub_le _ _) _))) fun _ q h => .ok h
    rintro rest q ⟨hroom, hle, hpaid⟩
    refine (writeStep_endsIn hentries rest hroom).mono (fun f r h => ?_) fun r h =>
      ⟨h.1, by omega⟩
    refine h.mono (fun rest' h => ?_) fun _ h => ?_
    · have hrest := h.length_le
      have hpaid' := h.paid
      exact ⟨⟨h.hasRoom, by omega, by omega⟩, h.falls⟩
    · obtain ⟨rfl, rfl⟩ := h
      exact ⟨hroom, by simpa using hpaid⟩
  flush := by
    intro p hroom
    have hsame := flush_endsIn os p
    refine hsame.mono (fun _ q h => ?_) fun q h => ?_
    all_goals exact ⟨h ▸ hroom, by rw [unchecked, unchecked, h]⟩

theorem finish_returned (hentries : EntriesFound cfg) (hroom : HasRoom cfg p.1) :
    ((finish os cfg).run p).1.returned := by
  refine returned_bind ?_ fun _ q _ => ?_
  · exact (EndsIn.mapErr (advanceFullFiles_endsIn hentries hroom)).returned
  · refine returned_bind rfl fun s r _ => ?_
    split <;> rfl

end SolidSink

end Unegg
