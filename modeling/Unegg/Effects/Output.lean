import Unegg.Coder.Bounded
import Unegg.Effects

/-!
# Unegg.Effects.Output

How much is written.

Only writes add to it; a `write_all` that fails has written a prefix of its
bytes (`writeAll_output`).
-/

namespace Unegg

open Prog

/-- The bytes that have been written. -/
def output (w : World) : Nat := (written w).length

theorem written_concat (w : World) (e : Event) :
    written (w ++ [e]) = written w ++ written.step e := by
  simp [written]

/-- Nothing is written. -/
def SameOutput (w w' : World) : Prop := output w' = output w

instance : Std.Refl SameOutput := ⟨fun _ => rfl⟩

instance : IsTrans World SameOutput := ⟨fun _ _ _ h h' => h'.trans h⟩

variable {os : Os}

/-- Events that are no writes write nothing. -/
theorem Adds.sameOutput {P : Event → Prop} {w w' : World} (h : Adds P w w')
    (hP : ∀ e, P e → written.step e = []) : SameOutput w w' := by
  obtain ⟨es, rfl, hes⟩ := h
  have hnil : es.flatMap written.step = [] :=
    List.flatMap_eq_nil_iff.mpr fun e he => hP e (hes e he)
  rw [SameOutput, output, output, written, List.flatMap_append, hnil, List.append_nil, written]

theorem sameOutput_note {ε : Type} {e : Event} (he : written.step e = []) :
    Run.Steps SameOutput (Os.note e : Run World ε Unit) := fun w =>
  (Adds.note (P := fun e => written.step e = []) he w).sameOutput fun _ => id

theorem sameOutput_createParent (p : Path) : Run.Steps SameOutput (os.createParent p) := fun w =>
  (Adds.createParent (P := fun e => written.step e = []) (fun _ _ _ => rfl) w).sameOutput fun _ => id

theorem sameOutput_createFile (p : Path) : Run.Steps SameOutput (os.createFile p) := fun w =>
  (Adds.createFile (P := fun e => written.step e = []) (fun _ => rfl) w).sameOutput fun _ => id

/-! ## writes -/

variable (os) in
theorem ends_osWrite (t : Target) (bs : List UInt8) : Run.Ends ((os.sink t).write bs) := by
  intro w
  simp only [Os.sink]
  split <;> rfl

variable (os) in
theorem ends_osFlush (t : Target) : Run.Ends (os.sink t).flush := by
  intro w
  simp only [Os.sink]
  split <;> rfl

variable (os) in
theorem counts_sink (t : Target) (w₀ : World) :
    (os.sink t).Takes fun d w => written w = written w₀ ++ d where
  write_ok := by
    intro bs d w n w' hw h
    simp only [Os.sink] at h
    split at h
    · simp only [Prod.mk.injEq, Outcome.ok.injEq] at h
      rw [← h.1, ← h.2, ← List.take_eq_take_min, ← List.append_assoc, ← hw, written_concat]
      rfl
    · simp at h
  write_err := by
    intro bs d w e w' hw h
    simp only [Os.sink] at h
    split at h
    · simp at h
    · simp only [Prod.mk.injEq] at h
      rwa [← h.2]
  flush := by
    intro d w hw
    simp only [Os.sink]
    split <;> exact hw

variable (os) in
/-- A `write_all` has written its bytes, or as many as went through before an
error. -/
theorem writeAll_output (t : Target) (bs : List UInt8) (w : World) : ∃ sent w', sent <+: bs ∧
    written w' = written w ++ sent ∧
    (((os.sink t).writeAll bs).run w = (.ok (), w') ∧ sent = bs ∨
      ∃ e, ((os.sink t).writeAll bs).run w = (.err e, w')) := by
  have hends := ByteSink.ends_writeAllCounted (ends_osWrite os t) bs w
  simp only [ByteSink.writeAll]
  rcases hrun : ((os.sink t).writeAllCounted bs).run w with ⟨⟨n, r⟩ | e | _ | _, w'⟩
  · obtain ⟨j, hn, hj, hwritten⟩ := (counts_sink os t w).writeAllFrom (d := []) (by simp) hrun
    refine ⟨bs.take j, w', List.take_prefix _ _, by simpa using hwritten, ?_⟩
    cases r with
    | none =>
        have hall := ByteSink.writeAllFrom_none hrun
        exact .inl ⟨rfl, List.take_of_length_le (by omega)⟩
    | some e => exact .inr ⟨e, rfl⟩
  · exact e.elim
  all_goals simp [hrun, Outcome.returned] at hends

/-- However a `write_all` ends, it has written no more than it was given. -/
theorem output_writeTo (t : Option Target) (bs : List UInt8) (w : World) :
    output ((os.writeTo t bs).run w).2 ≤ output w + bs.length := by
  cases t with
  | none => exact Nat.le_add_right _ _
  | some t =>
      obtain ⟨sent, w', hsent, hwritten, hrun⟩ := writeAll_output os t bs w
      have hout : output w' ≤ output w + bs.length := by
        rw [output, output, hwritten, List.length_append]
        exact Nat.add_le_add_left hsent.length_le _
      rcases hrun with ⟨hrun, -⟩ | ⟨e, hrun⟩
      all_goals rwa [Os.writeTo, hrun]

end Unegg
