import Unegg.Coder

/-!
# Coder.Failures

The errors that a program can end with, whatever it reads and whatever its
writer does.
-/

open Prog

namespace Coder

variable {ω ε ε' α β γ δ σ : Type}

/-- Every error of the program satisfies `P`. -/
def Fails (P : ε → Prop) : Coder ω ε α → Prop
  | ret _ | hang => True
  | fail e => P e
  | read _ k => ∀ bs, Fails P (k bs)
  | filter _ k => ∀ bs, Fails P (k bs)
  | writeAll _ k => ∀ n r, Fails P (k n r)
  | flush k => ∀ r, Fails P (k r)

namespace Fails

variable {P : ε → Prop} {t : Coder ω ε α}

theorem bind {f : α → Coder ω ε β} (h : Fails P t) (hf : ∀ a, Fails P (f a)) :
    Fails P (t >>= f) := by
  change Fails P (Coder.bind f t)
  induction t with
  | ret a => exact hf a
  | fail e => exact h
  | hang => trivial
  | read n k ih => exact fun bs => ih bs (h bs)
  | filter bs k ih => exact fun bs' => ih bs' (h bs')
  | writeAll bs k ih => exact fun n r => ih n r (h n r)
  | flush k ih => exact fun r => ih r (h r)

/-- A relabelled error. -/
theorem mapErr {P : ε' → Prop} {f : ε → ε'} (h : ∀ e, P (f e)) (t : Coder ω ε α) :
    Fails P (mapErr f t) := by
  induction t with
  | ret a => trivial
  | fail e => exact h e
  | hang => trivial
  | read n k ih => exact ih
  | filter bs k ih => exact ih
  | writeAll bs k ih => exact ih
  | flush k ih => exact ih

theorem tally {f : β → List UInt8 → β} (h : Fails P t) (b : β) : Fails P (tally f b t) := by
  induction t generalizing b with
  | ret a => trivial
  | fail e => exact h
  | hang => trivial
  | read n k ih => exact fun bs => ih bs (h bs) b
  | filter bs k ih => exact fun bs' => ih bs' (h bs') b
  | writeAll bs k ih => exact fun n r => ih n r (h n r) _
  | flush k ih => exact fun r => ih r (h r) b

theorem loop {body : β → Coder ω ε (Flow β γ)} (h : ∀ b, Fails P (body b)) (n : Nat) (b : β) :
    Fails P (loop body n b) := by
  induction n generalizing b with
  | zero => trivial
  | succ n ih =>
      refine bind (h b) fun f => ?_
      cases f with
      | next b' => exact ih b'
      | done c => trivial

/-- No run ends with another error. -/
theorem run [WriteError ω] {dec : List UInt8 → δ → List UInt8 × δ} {w : ByteSink ω σ}
    (h : Fails P t) : Run.Throws P (t.run dec w) := by
  intro io e io' hrun
  induction t generalizing io with
  | ret a => simp [Coder.run] at hrun
  | fail e' =>
      simp only [Coder.run, Run.throw_run, Prod.mk.injEq, Outcome.err.injEq] at hrun
      exact hrun.1 ▸ h
  | hang => simp [Coder.run] at hrun
  | read n k ih =>
      simp only [Coder.run] at hrun
      exact ih _ (h _) _ hrun
  | filter bs k ih =>
      simp only [Coder.run] at hrun
      exact ih _ (h _) _ hrun
  | writeAll bs k ih =>
      simp only [Coder.run] at hrun
      rcases hall : (w.writeAllCounted bs).run io.out with ⟨⟨n, r⟩ | x | _ | _, s⟩
      case err => exact x.elim
      case ok =>
        rw [hall] at hrun
        exact ih _ _ (h n r) _ hrun
      all_goals simp [hall] at hrun
  | flush k ih =>
      simp only [Coder.run] at hrun
      rcases hflush : w.flush.run io.out with ⟨u | x | _ | _, s⟩
      · rw [hflush] at hrun
        exact ih _ (h _) _ hrun
      · rw [hflush] at hrun
        exact ih _ (h _) _ hrun
      all_goals simp [hflush] at hrun

end Fails

end Coder
