import Unegg.Coder.Lockstep

/-!
# Coder.Logged

A writer with a log of the bytes it has accepted.  The log is only looked at in
proofs: the logged writer answers as the writer does (`alike_logged_write`), and
the log says what the writer has got, also where its state does not tell
(`takes_logged`).
-/

open Prog

namespace ByteSink

variable {ω σ : Type}

/-- The writer, and what it has accepted so far. -/
def logged (w : ByteSink ω σ) : ByteSink ω (σ × List UInt8) where
  write bs := ⟨fun p =>
    match (w.write bs).run p.1 with
    | (.ok n, s) => (.ok n, (s, p.2 ++ bs.take n))
    | (.err e, s) => (.err e, (s, p.2))
    | (.panic, s) => (.panic, (s, p.2))
    | (.hang, s) => (.hang, (s, p.2))⟩
  flush := ⟨fun p => ((w.flush.run p.1).1, ((w.flush.run p.1).2, p.2))⟩
  write_le := by
    intro bs p n p' h
    simp only at h
    rcases hw : (w.write bs).run p.1 with ⟨m | e | _ | _, s⟩
    · simp only [hw, Prod.mk.injEq, Outcome.ok.injEq] at h
      rw [← h.1]
      exact w.write_le _ _ _ _ hw
    all_goals simp [hw] at h

variable {w : ByteSink ω σ}

theorem alike_logged_write (bs : List UInt8) (s : σ) (log : List UInt8) :
    Run.Alike (fun _ s p => p.1 = s) (fun s p => p.1 = s) ((w.write bs).run s)
      ((w.logged.write bs).run (s, log)) := by
  simp only [logged]
  rcases (w.write bs).run s with ⟨n | e | _ | _, s'⟩
  · exact .ok rfl
  · exact .err rfl
  · exact .panic rfl
  · exact .hang rfl

theorem alike_logged_flush (s : σ) (log : List UInt8) :
    Run.Alike (fun _ s p => p.1 = s) (fun s p => p.1 = s) (w.flush.run s)
      (w.logged.flush.run (s, log)) := by
  simp only [logged]
  rcases w.flush.run s with ⟨n | e | _ | _, s'⟩
  · exact .ok rfl
  · exact .err rfl
  · exact .panic rfl
  · exact .hang rfl

/-- A program does not see the log. -/
theorem inStep_logged [WriteError ω] : Coder.InStep w w.logged fun s p => p.1 = s := by
  refine .of_write ?_ ?_
  · rintro bs s ⟨s', log⟩ rfl
    exact alike_logged_write bs s' log
  · rintro s ⟨s', log⟩ rfl
    exact alike_logged_flush s' log

/-- The log is what was taken. -/
theorem takes_logged : w.logged.Takes fun d p => p.2 = d where
  write_ok := by
    rintro bs d p n p' rfl h
    simp only [logged] at h
    rcases hw : (w.write bs).run p.1 with ⟨m | e | _ | _, s⟩
    · simp only [hw, Prod.mk.injEq, Outcome.ok.injEq] at h
      rw [← h.1, ← h.2]
    all_goals simp [hw] at h
  write_err := by
    rintro bs d p e p' rfl h
    simp only [logged] at h
    rcases hw : (w.write bs).run p.1 with ⟨m | e' | _ | _, s⟩
    · simp [hw] at h
    · simp only [hw, Prod.mk.injEq] at h
      rw [← h.2]
    all_goals simp [hw] at h
  flush := fun _ _ h => h

end ByteSink
