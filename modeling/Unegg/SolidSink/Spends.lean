import Unegg.Coder.Spends
import Unegg.SolidSink.Settles

/-!
# Unegg.SolidSink.Spends

The sink puts out no more than its blocks announce.

What it has written and the bytes of the blocks that are not checked yet
(`unchecked`) are a budget: a chunk is written out of the current block, and a
chunk that fails half way was no longer than what that block had left.
-/

namespace Unegg

open Prog Run

variable {os : Os}

namespace SolidSink

variable {cfg : SinkConfig} {p q : SolidSink × World}

/-- The budget of the sink: what is written. -/
def spent (p : SolidSink × World) : Nat := output p.2

/-- Neither the block nor what is written changes. -/
def Idle (p q : SolidSink × World) : Prop := SameBlock p q ∧ SameOutput p.2 q.2

instance : Std.Refl Idle := ⟨fun p => ⟨Std.Refl.refl p, rfl⟩⟩

instance : IsTrans (SolidSink × World) Idle where
  trans _ _ _ h h' := ⟨IsTrans.trans _ _ _ h.1 h'.1, IsTrans.trans _ _ _ h.2 h'.2⟩

/-- What is idle spends nothing. -/
theorem Idle.spends {ε α : Type} {r : Outcome ε α × (SolidSink × World)} (h : Idle p r.2) :
    Spends spent (unchecked cfg) p r := by
  refine .of_le (Nat.le_of_eq ?_)
  rw [spent, spent, h.2, h.1.unchecked_eq]

/-- A call that puts nothing out is idle. -/
theorem idle_call {α : Type} {m : Run World IoError α} (hm : Steps SameOutput m) :
    Steps Idle (call m) := fun p => ⟨⟨rfl, rfl, rfl⟩, hm p.2⟩

theorem idle_openOutput (entry : EggFileEntry) : Steps Idle (openOutput os cfg entry) := by
  rw [openOutput]
  split
  · exact .bind (idle_call (sameOutput_note rfl)) fun _ _ => ⟨⟨rfl, rfl, rfl⟩, rfl⟩
  · refine .bind (.ofExcept _) fun path => .bind (idle_call (sameOutput_createParent _)) fun _ => ?_
    exact .bind (idle_call (sameOutput_createFile _)) fun _ _ => ⟨⟨rfl, rfl, rfl⟩, rfl⟩

/-- Opening the file of the next byte is idle. -/
theorem idle_ensureFileOpen : Steps Idle (ensureFileOpen os cfg) := by
  refine .bind (fun _ => ⟨⟨rfl, rfl, rfl⟩, rfl⟩) fun s => .ite (.pure _) ?_
  refine .bind (fun _ => ⟨⟨rfl, rfl, rfl⟩, rfl⟩) fun _ => ?_
  split
  · exact .panic
  · exact .ite (idle_openOutput _) (.pure _)

/-- Passing full files is idle. -/
theorem idle_advanceFullFiles : Steps Idle (advanceFullFiles os cfg) := by
  refine .loop (fun u => .bind (fun _ => ⟨⟨rfl, rfl, rfl⟩, rfl⟩) fun s => ?_) _ _
  split
  · exact .pure _
  · exact .ite (.pure _) (.bind idle_ensureFileOpen fun _ =>
      .bind (fun _ => ⟨⟨rfl, rfl, rfl⟩, rfl⟩) fun _ => .pure _)

/-! ## the chunks -/

/-- What is left unchecked is the rest of this block and all of the next. -/
theorem unchecked_of_block {block : Nat × UInt32} (hblock : cfg.crcSpans[p.1.crcIdx]? = some block) :
    unchecked cfg p =
      block.1 + ((cfg.crcSpans.drop (p.1.crcIdx + 1)).map Prod.fst).sum - p.1.crcWritten := by
  obtain ⟨hlt, hget⟩ := List.getElem?_eq_some_iff.mp hblock
  rw [unchecked, List.drop_eq_getElem_cons hlt, hget, List.map_cons, List.sum_cons]

variable (os) in
/-- A chunk is paid for by the block that it belongs to. -/
theorem spends_writeChunk {block : Nat × UInt32} {chunk : List UInt8}
    (hblock : cfg.crcSpans[p.1.crcIdx]? = some block)
    (hle : chunk.length + p.1.crcWritten ≤ block.1) :
    Spends spent (unchecked cfg) p ((writeChunk os chunk).run p) := by
  have hout := @output_writeTo os p.1.writer chunk p.2
  have hleft := unchecked_of_block hblock
  rw [writeChunk, bind_of_ok (modify_run _ p), bind_of_ok (self_run _), bind_run, call, Run.zoom]
  dsimp only
  rcases hrun : (os.writeTo p.1.writer chunk).run p.2 with ⟨u | e | _ | _, w⟩
  all_goals
    rw [hrun] at hout
    dsimp only at hout ⊢
  · refine .of_le ?_
    have hafter := @unchecked_of_block cfg ({ p.1 with
      hasher := p.1.hasher.update chunk
      fileWritten := p.1.fileWritten + chunk.length
      crcWritten := p.1.crcWritten + chunk.length }, w) block hblock
    simp only [modify_run, spent]
    rw [hafter]
    dsimp only
    omega
  all_goals
    refine ⟨?_, by simp⟩
    simp only [spent]
    omega

theorem writeChunk_crcIdx {chunk : List UInt8} {u : Unit}
    (h : (writeChunk os chunk).run p = (.ok u, q)) : q.1.crcIdx = p.1.crcIdx := by
  have hends := @writeChunk_endsIn os p chunk
  rw [h] at hends
  exact hends.of_ok.2.2.1

/-- The end of a block costs nothing. -/
theorem spends_finishBlock {block : Nat × UInt32}
    (hblock : cfg.crcSpans[p.1.crcIdx]? = some block) :
    Spends spent (unchecked cfg) p ((finishBlock block.1 block.2).run p) := by
  rw [finishBlock, bind_of_ok (self_run p)]
  split
  · next hfull =>
      have hleft := unchecked_of_block hblock
      rw [bind_of_ok (modify_run _ p)]
      split
      · exact .of_le le_rfl
      · refine .of_le ?_
        simp only [modify_run, spent]
        rw [hleft, unchecked]
        dsimp only
        omega
  · exact .pure _

/-! ## whole calls -/

variable (os) in
/-- A pass writes no more than it checks off. -/
theorem spends_writeStep (rest : List UInt8) (p : SolidSink × World) :
    Spends spent (unchecked cfg) p ((writeStep os cfg rest).run p) := by
  rw [writeStep]
  split
  · exact .pure _
  refine .bind (idle_advanceFullFiles p).spends fun _ p₁ _ => ?_
  rw [bind_of_ok (self_run p₁)]
  cases hspan : cfg.fileSpans[p₁.1.fileIdx]? with
  | none => exact .throw _
  | some span =>
      cases hblock : cfg.crcSpans[p₁.1.crcIdx]? with
      | none => exact .throw _
      | some block =>
          refine .bind (idle_ensureFileOpen p₁).spends fun _ p₂ hopen => ?_
          obtain ⟨⟨hidx, hwritten, -⟩, -⟩ := idle_ensureFileOpen.of_run hopen
          have hblock₂ : cfg.crcSpans[p₂.1.crcIdx]? = some block := hidx ▸ hblock
          split
          · exact .panic
          · refine .bind (spends_writeChunk os hblock₂ ?_) fun _ p₃ hchunk => ?_
            · rw [List.length_take, hwritten]
              omega
            · have hblock₃ : cfg.crcSpans[p₃.1.crcIdx]? = some block :=
                writeChunk_crcIdx hchunk ▸ hblock₂
              exact .bind (spends_finishBlock hblock₃) fun _ _ _ => .pure _

variable (os) in
/-- **The sink stays within what its blocks announce.** -/
theorem spends_write (buf : List UInt8) (p : SolidSink × World) :
    Spends spent (unchecked cfg) p (((sink os cfg).write buf).run p) :=
  .bind (.loop (spends_writeStep os) _ _ _) fun _ _ _ => .pure _

variable (os) in
theorem spends_flush (p : SolidSink × World) :
    Spends spent (unchecked cfg) p (((sink os cfg).flush).run p) := by
  refine Idle.spends ?_
  change Idle p ((flush os).run p).2
  rw [flush, bind_of_ok (self_run p)]
  split
  · refine idle_call (fun w => ?_) p
    simp only [Os.sink]
    split <;> rfl
  · exact Std.Refl.refl p

end SolidSink

end Unegg
