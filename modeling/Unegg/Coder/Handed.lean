import Unegg.Coder

/-!
# Coder.Handed

What a program hands to its filter.  The state of a filter that works byte by
byte depends on that alone (`crypto_run`).  A program `Pipes` its source when
it hands over what it reads, once and in order; a program that only writes
does.
-/

open Prog

namespace Coder

variable {ω ε ε' α β γ δ σ : Type} [WriteError ω]

section Handed

variable (dec : List UInt8 → δ → List UInt8 × δ) (w : ByteSink ω σ)

/-- The bytes a run hands to the filter. -/
def handed : Coder ω ε α → Io δ σ → List UInt8
  | ret _, _ | fail _, _ | hang, _ => []
  | read n k, io => handed (k (io.rest.take n)) { io with rest := io.rest.drop n }
  | filter bs k, io =>
      bs ++ handed (k (dec bs io.crypto).1) { io with crypto := (dec bs io.crypto).2 }
  | writeAll bs k, io =>
      match (w.writeAllCounted bs).run io.out with
      | (.ok (n, r), s) => handed (k n r) { io with out := s }
      | _ => []
  | flush k, io =>
      match w.flush.run io.out with
      | (.ok _, s) => handed (k none) { io with out := s }
      | (.err e, s) => handed (k (some e)) { io with out := s }
      | _ => []

/-- A run that returns has handed over what it has read. -/
def Pipes (t : Coder ω ε α) : Prop :=
  ∀ io a io', (t.run dec w).run io = (.ok a, io') → io.rest = handed dec w t io ++ io'.rest

end Handed

variable {dec : List UInt8 → δ → List UInt8 × δ} {w : ByteSink ω σ}

/-- The filter's state depends on what it was handed. -/
theorem crypto_run (dec : List UInt8 → δ → List UInt8 × δ) (w : ByteSink ω σ)
    (hnil : ∀ d, (dec [] d).2 = d)
    (happend : ∀ xs ys d, (dec (xs ++ ys) d).2 = (dec ys (dec xs d).2).2) (t : Coder ω ε α)
    (io : Io δ σ) :
    ((t.run dec w).run io).2.crypto = (dec (handed dec w t io) io.crypto).2 := by
  induction t generalizing io with
  | ret a => exact (hnil _).symm
  | fail e => exact (hnil _).symm
  | hang => exact (hnil _).symm
  | read n k ih => exact ih _ _
  | filter bs k ih =>
      rw [handed, happend]
      exact ih _ _
  | writeAll bs k ih =>
      simp only [run, handed]
      rcases (w.writeAllCounted bs).run io.out with ⟨⟨n, r⟩ | e | _ | _, s⟩
      · exact ih n r _
      · exact e.elim
      all_goals exact (hnil _).symm
  | flush k ih =>
      simp only [run, handed]
      rcases w.flush.run io.out with ⟨u | e | _ | _, s⟩
      · exact ih none _
      · exact ih (some e) _
      all_goals exact (hnil _).symm

/-- What a sequence hands over is what its parts do. -/
theorem handed_bind (t : Coder ω ε α) (f : α → Coder ω ε β) {io io' : Io δ σ} {a : α}
    (h : (t.run dec w).run io = (.ok a, io')) :
    handed dec w (t >>= f) io = handed dec w t io ++ handed dec w (f a) io' := by
  change handed dec w (bind f t) io = _
  induction t generalizing io with
  | ret a' =>
      simp only [run, Run.pure_run, Prod.mk.injEq, Outcome.ok.injEq] at h
      obtain ⟨rfl, rfl⟩ := h
      rfl
  | fail e => simp [run] at h
  | hang => simp [run] at h
  | read n k ih => exact ih _ h
  | filter bs k ih =>
      simp only [bind, handed]
      rw [ih _ h, List.append_assoc]
  | writeAll bs k ih =>
      simp only [run] at h
      simp only [bind, handed]
      rcases hall : (w.writeAllCounted bs).run io.out with ⟨⟨n, r⟩ | e | _ | _, s⟩
      · rw [hall] at h
        exact ih n r h
      · exact e.elim
      all_goals simp [hall] at h
  | flush k ih =>
      simp only [run] at h
      simp only [bind, handed]
      rcases hflush : w.flush.run io.out with ⟨u | e | _ | _, s⟩
      · rw [hflush] at h
        exact ih none h
      · rw [hflush] at h
        exact ih (some e) h
      all_goals simp [hflush] at h

/-- Renaming the errors of a program renames those of its run. -/
theorem run_mapErr (t : Coder ω ε α) (f : ε → ε') (io : Io δ σ) :
    ((mapErr f t).run dec w).run io = (Run.mapErr f (t.run dec w)).run io := by
  induction t generalizing io with
  | ret a => rfl
  | fail e => rfl
  | hang => rfl
  | read n k ih => exact ih _ _
  | filter bs k ih => exact ih _ _
  | writeAll bs k ih =>
      simp only [mapErr, run, Run.mapErr]
      rcases (w.writeAllCounted bs).run io.out with ⟨⟨n, r⟩ | e | _ | _, s⟩
      · exact ih n r _
      · exact e.elim
      all_goals rfl
  | flush k ih =>
      simp only [mapErr, run, Run.mapErr]
      rcases w.flush.run io.out with ⟨u | e | _ | _, s⟩
      · exact ih none _
      · exact ih (some e) _
      all_goals rfl

/-- A program whose errors are renamed hands over the same. -/
theorem handed_mapErr (t : Coder ω ε α) (f : ε → ε') (io : Io δ σ) :
    handed dec w (mapErr f t) io = handed dec w t io := by
  induction t generalizing io with
  | ret a => rfl
  | fail e => rfl
  | hang => rfl
  | read n k ih => exact ih _ _
  | filter bs k ih => exact congrArg _ (ih _ _)
  | writeAll bs k ih =>
      simp only [mapErr, handed]
      rcases (w.writeAllCounted bs).run io.out with ⟨⟨n, r⟩ | e | _ | _, s⟩
      · exact ih n r _
      all_goals rfl
  | flush k ih =>
      simp only [mapErr, handed]
      rcases w.flush.run io.out with ⟨u | e | _ | _, s⟩
      · exact ih none _
      · exact ih (some e) _
      all_goals rfl

namespace Pipes

theorem ret (a : α) : Pipes dec w (ret a : Coder ω ε α) := by
  intro io b io' h
  simp only [run, Run.pure_run, Prod.mk.injEq] at h
  rw [handed, h.2, List.nil_append]

theorem fail (e : ε) : Pipes dec w (fail e : Coder ω ε α) := by
  intro io a io' h
  simp [run] at h

theorem hang : Pipes dec w (hang : Coder ω ε α) := by
  intro io a io' h
  simp [run] at h

/-- A sequence pipes if its parts do. -/
theorem bind {t : Coder ω ε α} {f : α → Coder ω ε β} (ht : Pipes dec w t)
    (hf : ∀ a, Pipes dec w (f a)) : Pipes dec w (t >>= f) := by
  intro io b io' h
  rw [run_bind, Run.bind_ok] at h
  obtain ⟨a, io₁, hfirst, hrest⟩ := h
  rw [handed_bind t f hfirst, List.append_assoc, ← hf a io₁ b io' hrest]
  exact ht io a io₁ hfirst

/-- A loop pipes if its passes do. -/
theorem loop {body : β → Coder ω ε (Flow β γ)} (h : ∀ b, Pipes dec w (body b)) (n : Nat) (b : β) :
    Pipes dec w (loop body n b) := by
  induction n generalizing b with
  | zero => exact hang
  | succ n ih =>
      refine bind (h b) fun f => ?_
      cases f with
      | next b' => exact ih b'
      | done c => exact ret c

/-- A program pipes under other names of its errors. -/
theorem mapErr {t : Coder ω ε α} {f : ε → ε'} (h : Pipes dec w t) : Pipes dec w (mapErr f t) := by
  intro io a io' hok
  rw [handed_mapErr]
  rw [run_mapErr, Run.mapErr_ok] at hok
  exact h io a io' hok

end Pipes

/-! ## programs that only write -/

/-- The program neither reads nor filters. -/
def WritesOnly : Coder ω ε α → Prop
  | ret _ | fail _ | hang => True
  | read _ _ | filter _ _ => False
  | writeAll _ k => ∀ n r, WritesOnly (k n r)
  | flush k => ∀ r, WritesOnly (k r)

namespace WritesOnly

omit [WriteError ω] in
/-- A program that only writes does so under other names of its errors. -/
theorem mapErr {t : Coder ω ε α} {f : ε → ε'} (h : WritesOnly t) : WritesOnly (mapErr f t) := by
  induction t with
  | ret a => trivial
  | fail e => trivial
  | hang => trivial
  | read n k ih => exact h
  | filter bs k ih => exact h
  | writeAll bs k ih => exact fun n r => ih n r (h n r)
  | flush k ih => exact fun r => ih r (h r)

omit [WriteError ω] in
/-- Counting what is written writes nothing more. -/
theorem tally {t : Coder ω ε α} {f : β → List UInt8 → β} (h : WritesOnly t) (b : β) :
    WritesOnly (tally f b t) := by
  induction t generalizing b with
  | ret a => trivial
  | fail e => trivial
  | hang => trivial
  | read n k ih => exact h
  | filter bs k ih => exact h
  | writeAll bs k ih => exact fun n r => ih n r (h n r) _
  | flush k ih => exact fun r => ih r (h r) b

/-- It leaves the source alone and hands nothing over. -/
theorem run {t : Coder ω ε α} (h : WritesOnly t) (io : Io δ σ) :
    handed dec w t io = [] ∧ ((t.run dec w).run io).2.rest = io.rest := by
  induction t generalizing io with
  | ret a => exact ⟨rfl, rfl⟩
  | fail e => exact ⟨rfl, rfl⟩
  | hang => exact ⟨rfl, rfl⟩
  | read n k ih => exact h.elim
  | filter bs k ih => exact h.elim
  | writeAll bs k ih =>
      simp only [Coder.run, handed]
      rcases (w.writeAllCounted bs).run io.out with ⟨⟨n, r⟩ | e | _ | _, s⟩
      · exact ih n r (h n r) _
      · exact e.elim
      all_goals exact ⟨rfl, rfl⟩
  | flush k ih =>
      simp only [Coder.run, handed]
      rcases w.flush.run io.out with ⟨u | e | _ | _, s⟩
      · exact ih none (h none) _
      · exact ih (some e) (h (some e)) _
      all_goals exact ⟨rfl, rfl⟩

/-- What only writes reads nothing, and so hands over what it reads. -/
theorem pipes {t : Coder ω ε α} (h : WritesOnly t) : Pipes dec w t := by
  intro io a io' hrun
  obtain ⟨hhanded, hrest⟩ : handed dec w t io = [] ∧ ((t.run dec w).run io).2.rest = io.rest :=
    h.run io
  rw [hrun] at hrest
  rw [hhanded, hrest, List.nil_append]

end WritesOnly

end Coder
