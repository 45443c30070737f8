import Unegg.Coder.Logged

/-!
# Coder.Bounded

Writers that take a bounded number of bytes in all: a measure of the writer's
state pays for every byte it takes.  On such a writer a `write_all` comes back
(`Bounded.ends_writeAll`) and is paid for as a whole (`Bounded.writeAll`).
-/

open Prog

namespace ByteSink

variable {ω σ : Type}

/-- `room s` is the number of bytes that the writer may still take in `s`. -/
structure Bounded (w : ByteSink ω σ) (room : σ → Nat) : Prop where
  ends : ∀ bs, Run.Ends (w.write bs)
  write_ok : ∀ bs s n s', (w.write bs).run s = (.ok n, s') → n + room s' ≤ room s

variable {w : ByteSink ω σ} {room : σ → Nat}

variable [WriteError ω]

/-- Each write takes a byte, or it is the last. -/
theorem ends_writeAllCounted (hw : ∀ bs, Run.Ends (w.write bs)) (bs : List UInt8) :
    Run.Ends (w.writeAllCounted bs) := by
  suffices h : ∀ n k bs, bs.length ≤ n → Run.Ends (w.writeAllFrom n k bs) from h _ _ _ le_rfl
  intro n
  induction n with
  | zero =>
      intro k bs hle
      obtain rfl : bs = [] := List.length_eq_zero_iff.mp (by omega)
      exact .pure _
  | succ n ih =>
      intro k bs hle
      cases bs with
      | nil => exact .pure _
      | cons b bs =>
          refine .bind (.attempt (hw _)) fun r => ?_
          cases r with
          | error e => exact .pure _
          | ok j =>
              dsimp only
              by_cases hj : j = 0
              · rw [if_pos hj]
                exact .pure _
              · rw [if_neg hj]
                refine ih _ _ ?_
                rw [List.length_drop]
                omega

theorem ends_writeAll (hw : ∀ bs, Run.Ends (w.write bs)) (bs : List UInt8) :
    Run.Ends (w.writeAll bs) := by
  intro s
  have h := ends_writeAllCounted hw bs s
  simp only [writeAll]
  rcases hrun : (w.writeAllCounted bs).run s with ⟨⟨n, _ | e⟩ | e | _ | _, s'⟩
  · rfl
  · rfl
  · exact e.elim
  all_goals simp [hrun, Outcome.returned] at h

/-- The bytes of a `write_all` are paid for. -/
theorem Bounded.writeAll (hw : w.Bounded room) {bs : List UInt8} {s s' : σ}
    (h : (w.writeAll bs).run s = (.ok (), s')) : bs.length + room s' ≤ room s := by
  have hall := writeAll_induction (w := w) (I := fun d t => d.length + room t ≤ room s) ?_
    (d := []) (by simp) h
  · simpa using hall
  · intro cs d t n t' hI hwrite
    have hpaid := hw.write_ok _ _ _ _ hwrite
    rw [List.length_append, List.length_take]
    omega

end ByteSink
