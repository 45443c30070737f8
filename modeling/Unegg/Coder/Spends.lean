import Unegg.Coder.Bounded
import Unegg.Coder.Streams

/-!
# Coder.Spends

Budgets.  A state has spent something, and has something left to spend; a run
stays within it when a value comes with what was spent and what is left in
balance, and when nothing that ends otherwise has spent more than there was.
What is left behind a failure does not count.  So a program that gives up on the
first failed write stays within the budget of its writer
(`Streams.spends_run`), though a writer may lose count when it fails.
-/

open Prog

namespace Prog.Run

variable {σ τ ε ε' α β γ : Type} {spent left : σ → Nat}

/-- A run that started in `s` stays within the budget. -/
structure Spends (spent left : σ → Nat) (s : σ) (r : Outcome ε α × σ) : Prop where
  spent_le : spent r.2 ≤ spent s + left s
  balance : ∀ a, r.1 = .ok a → spent r.2 + left r.2 ≤ spent s + left s

namespace Spends

variable {s s₁ : σ} {r : Outcome ε α × σ}

/-- In balance, however the run ended. -/
theorem of_le (h : spent r.2 + left r.2 ≤ spent s + left s) : Spends spent left s r :=
  ⟨(Nat.le_add_right _ _).trans h, fun _ _ => h⟩

theorem pure (a : α) : Spends spent left s ((Pure.pure a : Run σ ε α).run s) := .of_le le_rfl

theorem throw (e : ε) : Spends spent left s ((Run.throw e : Run σ ε α).run s) := .of_le le_rfl

theorem panic : Spends spent left s ((Run.panic : Run σ ε α).run s) := .of_le le_rfl

/-- What comes behind a state in balance. -/
theorem after (h : Spends spent left s₁ r) (hs : spent s₁ + left s₁ ≤ spent s + left s) :
    Spends spent left s r :=
  ⟨h.spent_le.trans hs, fun a ha => (h.balance a ha).trans hs⟩

/-- What the first part leaves is what the second may spend. -/
theorem bind {m : Run σ ε α} {f : α → Run σ ε β} (hm : Spends spent left s (m.run s))
    (hf : ∀ a s₁, m.run s = (.ok a, s₁) → Spends spent left s₁ ((f a).run s₁)) :
    Spends spent left s ((m >>= f).run s) := by
  rw [bind_run]
  rcases hrun : m.run s with ⟨a | e | _ | _, s₁⟩
  all_goals rw [hrun] at hm
  · exact (hf a s₁ hrun).after (hm.balance a rfl)
  all_goals exact ⟨hm.spent_le, by simp⟩

/-- Renaming the errors spends nothing. -/
theorem mapErr {f : ε → ε'} {m : Run σ ε α} (h : Spends spent left s (m.run s)) :
    Spends spent left s ((Run.mapErr f m).run s) := by
  refine ⟨h.spent_le, fun a ha => ?_⟩
  exact h.balance a (Outcome.mapErr_eq_ok.mp ha)

/-- A loop spends what its passes spend. -/
theorem loop {body : β → Run σ ε (Flow β γ)}
    (hbody : ∀ b s, Spends spent left s ((body b).run s)) (n : Nat) (b : β) (s : σ) :
    Spends spent left s ((Run.loop body n b).run s) := by
  induction n generalizing b s with
  | zero => exact .of_le le_rfl
  | succ n ih =>
      refine bind (hbody b s) fun f s₁ _ => ?_
      cases f with
      | next b' => exact ih b' s₁
      | done c => exact .pure c

end Spends

/-- A run adds at most `n` to a size, however it ends. -/
def Grows (size : σ → Nat) (n : Nat) (m : Run σ ε α) : Prop := ∀ s, size (m.run s).2 ≤ size s + n

namespace Grows

variable {size : σ → Nat} {n k : Nat}

/-- What leaves the size alone grows by nothing. -/
theorem of_steps {m : Run σ ε α} (h : Steps (fun s s' => size s' = size s) m) : Grows size n m :=
  fun s => (h s).le.trans (Nat.le_add_right _ _)

/-- A sequence from one state. -/
theorem bind_at {m : Run σ ε α} {f : α → Run σ ε β} {s : σ} (hm : size (m.run s).2 ≤ size s + n)
    (hf : ∀ a s₁, m.run s = (.ok a, s₁) → size ((f a).run s₁).2 ≤ size s₁ + k) :
    size ((m >>= f).run s).2 ≤ size s + (n + k) := by
  rw [bind_run]
  rcases hrun : m.run s with ⟨a | e | _ | _, s₁⟩
  all_goals
    rw [hrun] at hm
    dsimp only at hm ⊢
  · have hnext := hf a s₁ hrun
    omega
  all_goals omega

/-- Growth adds up. -/
theorem bind {m : Run σ ε α} {f : α → Run σ ε β} (hm : Grows size n m)
    (hf : ∀ a, Grows size k (f a)) : Grows size (n + k) (m >>= f) :=
  fun s => bind_at (hm s) fun a s₁ _ => hf a s₁

/-- A step that adds nothing, at the beginning. -/
theorem behind {m : Run σ ε α} {f : α → Run σ ε β}
    (hm : Steps (fun s s' => size s' = size s) m) (hf : ∀ a, Grows size n (f a)) :
    Grows size n (m >>= f) :=
  Nat.zero_add n ▸ bind (.of_steps hm) hf

/-- Steps that add nothing, at the end. -/
theorem before {m : Run σ ε α} {f : α → Run σ ε β} (hm : Grows size n m)
    (hf : ∀ a, Steps (fun s s' => size s' = size s) (f a)) : Grows size n (m >>= f) :=
  bind (k := 0) hm fun a => .of_steps (hf a)

theorem ite {p : Prop} [Decidable p] {m m' : Run σ ε α} (h : Grows size n m)
    (h' : Grows size n m') : Grows size n (if p then m else m') := by
  split
  · exact h
  · exact h'

/-- An attempt grows like what is attempted. -/
theorem attempt {m : Run σ ε α} (h : Grows size n m) :
    Grows size n (Run.attempt m : Run σ ε' (Except ε α)) := by
  intro s
  have hs := h s
  rw [Run.attempt]
  dsimp only
  rcases hrun : m.run s with ⟨a | e | _ | _, s₁⟩
  all_goals rwa [hrun] at hs

/-- A sweep over a list grows by the sum. -/
theorem forEach {f : α → Run σ ε Unit} {cost : α → Nat} {as : List α}
    (hf : ∀ a ∈ as, Grows size (cost a) (f a)) :
    Grows size (as.map cost).sum (Run.forEach f as) := by
  induction as with
  | nil => exact fun s => Nat.le_add_right _ _
  | cons a as ih =>
      rw [List.forall_mem_cons] at hf
      exact .bind hf.1 fun _ => ih hf.2

end Grows

end Prog.Run

/-! ## writers and programs -/

variable {ω ε α δ σ : Type} [WriteError ω] {w : ByteSink ω σ} {spent left : σ → Nat}

/-- A `write_all` on a writer that stays within its budget; the error it stops
with is a value here. -/
theorem ByteSink.spends_writeAllCounted
    (hw : ∀ bs s, Run.Spends spent left s ((w.write bs).run s)) (bs : List UInt8) (s : σ) :
    spent ((w.writeAllCounted bs).run s).2 ≤ spent s + left s ∧
      ∀ n s', (w.writeAllCounted bs).run s = (.ok (n, none), s') →
        spent s' + left s' ≤ spent s + left s := by
  suffices h : ∀ n k bs s, spent ((w.writeAllFrom n k bs).run s).2 ≤ spent s + left s ∧
      ∀ m s', (w.writeAllFrom n k bs).run s = (.ok (m, none), s') →
        spent s' + left s' ≤ spent s + left s from h _ _ _ _
  intro n
  induction n with
  | zero =>
      intro k bs s
      cases bs with
      | nil => exact ⟨Nat.le_add_right _ _, by simp⟩
      | cons b bs => exact ⟨Nat.le_add_right _ _, by simp [writeAllFrom]⟩
  | succ n ih =>
      intro k bs s
      cases bs with
      | nil => exact ⟨Nat.le_add_right _ _, by simp⟩
      | cons b bs =>
          have hwrite := hw (b :: bs) s
          rw [writeAllFrom, Run.bind_run, Run.attempt]
          dsimp only
          rcases hrun : (w.write (b :: bs)).run s with ⟨j | e | _ | _, s₁⟩
          · rw [hrun] at hwrite
            have hbalance := hwrite.balance j rfl
            dsimp only at hbalance ⊢
            by_cases hzero : j = 0
            · rw [if_pos hzero]
              exact ⟨hwrite.spent_le, by simp⟩
            · rw [if_neg hzero]
              obtain ⟨hspent, hdone⟩ := ih (k + j) ((b :: bs).drop j) s₁
              exact ⟨hspent.trans hbalance, fun m s' h => (hdone m s' h).trans hbalance⟩
          all_goals
            rw [hrun] at hwrite
            exact ⟨hwrite.spent_le, by simp⟩

namespace Coder

variable {dec : List UInt8 → δ → List UInt8 × δ}

/-- **A program that stops on the first failure** stays within the budget of its
writer. -/
theorem Streams.spends_run {t : Coder ω ε α} (ht : Streams t)
    (hw : ∀ bs s, Run.Spends spent left s ((w.write bs).run s))
    (hf : ∀ s, Run.Spends spent left s (w.flush.run s)) (io : Io δ σ) :
    Run.Spends (fun io : Io δ σ => spent io.out) (fun io => left io.out) io ((t.run dec w).run io) := by
  induction t generalizing io with
  | ret a => exact .pure a
  | fail e => exact .throw e
  | hang => exact .of_le le_rfl
  | read n k ih => exact (ih _ (ht _) { io with rest := io.rest.drop n }).after le_rfl
  | filter bs k ih =>
      exact (ih _ (ht _) { io with crypto := (dec bs io.crypto).2 }).after le_rfl
  | writeAll bs k ih =>
      obtain ⟨hok, f, hfail⟩ := ht
      obtain ⟨hspent, hdone⟩ := ByteSink.spends_writeAllCounted hw bs io.out
      simp only [run]
      rcases h : (w.writeAllCounted bs).run io.out with ⟨⟨n, _ | e⟩ | e | _ | _, s⟩
      · have hn := ByteSink.writeAllFrom_none h
        rw [Nat.zero_add] at hn
        subst hn
        exact (ih _ _ hok { io with out := s }).after (hdone _ _ h)
      · rw [h] at hspent
        simp only [hfail]
        exact ⟨hspent, fun a ha => by cases ha⟩
      · exact e.elim
      all_goals
        rw [h] at hspent
        exact ⟨hspent, by simp⟩
  | flush k ih =>
      obtain ⟨hok, f, hfail⟩ := ht
      have hflush := hf io.out
      simp only [run]
      rcases h : w.flush.run io.out with ⟨u | e | _ | _, s⟩
      · rw [h] at hflush
        exact (ih _ hok { io with out := s }).after (hflush.balance u rfl)
      · rw [h] at hflush
        simp only [hfail]
        exact ⟨hflush.spent_le, fun a ha => by cases ha⟩
      all_goals
        rw [h] at hflush
        exact ⟨hflush.spent_le, by simp⟩

end Coder
