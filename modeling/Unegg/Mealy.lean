import Mathlib

/-!
# Mealy

Machines that turn each letter of a word into another one and change their
state on the way.  Running one on a word is the same as running it on the
pieces of the word one after the other (`run_append`, `runs_flatten`).  A
machine that undoes each step of another one undoes its runs, and goes through
the same states (`run_inverse`).
-/

namespace Mealy

variable {σ α β : Type}

/-- The word put out, and the state at the end. -/
def run (step : σ → α → β × σ) : List α → σ → List β × σ
  | [], s => ([], s)
  | a :: as, s => ((step s a).1 :: (run step as (step s a).2).1, (run step as (step s a).2).2)

variable {step : σ → α → β × σ}

@[simp] theorem run_nil (s : σ) : run step [] s = ([], s) := rfl

@[simp] theorem length_run (as : List α) (s : σ) : (run step as s).1.length = as.length := by
  induction as generalizing s with
  | nil => rfl
  | cons a as ih => simp [run, ih]

theorem run_append (as bs : List α) (s : σ) :
    run step (as ++ bs) s =
      ((run step as s).1 ++ (run step bs (run step as s).2).1,
        (run step bs (run step as s).2).2) := by
  induction as generalizing s with
  | nil => rfl
  | cons a as ih => simp [run, ih]

/-- Run on the pieces of a word, one after the other. -/
def runs (step : σ → α → β × σ) : List (List α) → σ → List (List β) × σ
  | [], s => ([], s)
  | w :: ws, s =>
    ((run step w s).1 :: (runs step ws (run step w s).2).1, (runs step ws (run step w s).2).2)

/-- However a word is cut, the pieces of the output make up the output. -/
theorem runs_flatten (ws : List (List α)) (s : σ) :
    ((runs step ws s).1.flatten, (runs step ws s).2) = run step ws.flatten s := by
  induction ws generalizing s with
  | nil => rfl
  | cons w ws ih => rw [List.flatten_cons, run_append, ← ih, runs, List.flatten_cons]

/-- The first letters put out depend on the first letters alone. -/
theorem run_take (n : Nat) (as : List α) (s : σ) :
    (run step (as.take n) s).1 = (run step as s).1.take n := by
  induction as generalizing n s with
  | nil => simp
  | cons a as ih =>
      cases n with
      | zero => simp
      | succ n => rw [List.take_succ_cons, run, run, ih, List.take_succ_cons]

/-- A machine that undoes each step undoes the runs, through the same states. -/
theorem run_inverse {back : σ → β → α × σ}
    (h : ∀ s a, back s (step s a).1 = (a, (step s a).2)) (as : List α) (s : σ) :
    run back (run step as s).1 s = (as, (run step as s).2) := by
  induction as generalizing s with
  | nil => rfl
  | cons a as ih => rw [run, run, h, ih]

/-- Two machines whose states correspond, step by step. -/
theorem run_map {τ : Type} {step' : τ → α → β × τ} {f : σ → τ}
    (h : ∀ s a, step' (f s) a = ((step s a).1, f (step s a).2)) (as : List α) (s : σ) :
    run step' as (f s) = ((run step as s).1, f (run step as s).2) := by
  induction as generalizing s with
  | nil => rfl
  | cons a as ih => rw [run, run, h, ih]

end Mealy
