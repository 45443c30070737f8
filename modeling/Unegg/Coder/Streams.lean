import Unegg.Coder

/-!
# Coder.Streams

Programs that give up on the first failed write.  Such a program sends the
same bytes whatever it writes to, up to the first failure of its writer; so
its runs against two writers whose states are related can be compared without
looking at the program.
-/

open Prog

namespace Coder

variable {ω ε ε' α β γ δ σ τ : Type}

/-- A failed write or flush ends the program, with an error that depends on
the failure alone. -/
def Streams : Coder ω ε α → Prop
  | ret _ | fail _ | hang => True
  | read _ k => ∀ bs, Streams (k bs)
  | filter _ k => ∀ bs, Streams (k bs)
  | writeAll bs k => Streams (k bs.length none) ∧ ∃ f : ω → ε, ∀ n e, k n (some e) = fail (f e)
  | flush k => Streams (k none) ∧ ∃ f : ω → ε, ∀ e, k (some e) = fail (f e)

/-- The same, with what the error says of the failure. -/
def StopsWith (G : ω → ε → Prop) : Coder ω ε α → Prop
  | ret _ | fail _ | hang => True
  | read _ k => ∀ bs, StopsWith G (k bs)
  | filter _ k => ∀ bs, StopsWith G (k bs)
  | writeAll bs k => StopsWith G (k bs.length none) ∧
      ∃ f : ω → ε, ∀ n e, k n (some e) = fail (f e) ∧ G e (f e)
  | flush k => StopsWith G (k none) ∧ ∃ f : ω → ε, ∀ e, k (some e) = fail (f e) ∧ G e (f e)

namespace StopsWith

variable {G : ω → ε → Prop}

/-- What the error says may be weakened. -/
theorem mono {H : ω → ε → Prop} {t : Coder ω ε α} (h : StopsWith G t)
    (hGH : ∀ e x, G e x → H e x) : StopsWith H t := by
  induction t with
  | ret a => trivial
  | fail e => trivial
  | hang => trivial
  | read n k ih => exact fun bs => ih bs (h bs)
  | filter bs k ih => exact fun bs' => ih bs' (h bs')
  | writeAll bs k ih =>
      obtain ⟨hok, g, hg⟩ := h
      exact ⟨ih _ _ hok, g, fun n e => ⟨(hg n e).1, hGH _ _ (hg n e).2⟩⟩
  | flush k ih =>
      obtain ⟨hok, g, hg⟩ := h
      exact ⟨ih _ hok, g, fun e => ⟨(hg e).1, hGH _ _ (hg e).2⟩⟩

/-- A sequence stops with errors if its parts do. -/
theorem bind {t : Coder ω ε α} {f : α → Coder ω ε β} (h : StopsWith G t)
    (hf : ∀ a, StopsWith G (f a)) : StopsWith G (t >>= f) := by
  change StopsWith G (Coder.bind f t)
  induction t with
  | ret a => exact hf a
  | fail e => trivial
  | hang => trivial
  | read n k ih => exact fun bs => ih bs (h bs)
  | filter bs k ih => exact fun bs' => ih bs' (h bs')
  | writeAll bs k ih =>
      obtain ⟨hok, g, hg⟩ := h
      refine ⟨ih _ _ hok, g, fun n e => ⟨?_, (hg n e).2⟩⟩
      simp only [(hg n e).1, Coder.bind]
  | flush k ih =>
      obtain ⟨hok, g, hg⟩ := h
      refine ⟨ih _ hok, g, fun e => ⟨?_, (hg e).2⟩⟩
      simp only [(hg e).1, Coder.bind]

/-- Errors may be renamed with what they say. -/
theorem mapErr {H : ω → ε' → Prop} {t : Coder ω ε α} {f : ε → ε'} (h : StopsWith G t)
    (hGH : ∀ e x, G e x → H e (f x)) : StopsWith H (mapErr f t) := by
  induction t with
  | ret a => trivial
  | fail e => trivial
  | hang => trivial
  | read n k ih => exact fun bs => ih bs (h bs)
  | filter bs k ih => exact fun bs' => ih bs' (h bs')
  | writeAll bs k ih =>
      obtain ⟨hok, g, hg⟩ := h
      refine ⟨ih _ _ hok, f ∘ g, fun n e => ⟨?_, hGH _ _ (hg n e).2⟩⟩
      simp only [(hg n e).1, Coder.mapErr, Function.comp_apply]
  | flush k ih =>
      obtain ⟨hok, g, hg⟩ := h
      refine ⟨ih _ hok, f ∘ g, fun e => ⟨?_, hGH _ _ (hg e).2⟩⟩
      simp only [(hg e).1, Coder.mapErr, Function.comp_apply]

theorem tally {t : Coder ω ε α} {f : β → List UInt8 → β} (h : StopsWith G t) (b : β) :
    StopsWith G (tally f b t) := by
  induction t generalizing b with
  | ret a => trivial
  | fail e => trivial
  | hang => trivial
  | read n k ih => exact fun bs => ih bs (h bs) b
  | filter bs k ih => exact fun bs' => ih bs' (h bs') b
  | writeAll bs k ih =>
      obtain ⟨hok, g, hg⟩ := h
      refine ⟨ih _ _ hok _, g, fun n e => ⟨?_, (hg n e).2⟩⟩
      simp only [(hg n e).1, Coder.tally]
  | flush k ih =>
      obtain ⟨hok, g, hg⟩ := h
      refine ⟨ih _ hok b, g, fun e => ⟨?_, (hg e).2⟩⟩
      simp only [(hg e).1, Coder.tally]

/-- A loop stops with errors if its passes do. -/
theorem loop {body : β → Coder ω ε (Flow β γ)} (h : ∀ b, StopsWith G (body b)) (n : Nat) (b : β) :
    StopsWith G (loop body n b) := by
  induction n generalizing b with
  | zero => trivial
  | succ n ih =>
      refine bind (h b) fun f => ?_
      cases f with
      | next b' => exact ih b'
      | done c => trivial

end StopsWith

/-- To stream is to stop with any error. -/
theorem streams_iff {t : Coder ω ε α} : t.Streams ↔ t.StopsWith fun _ _ => True := by
  induction t with
  | ret a => exact Iff.rfl
  | fail e => exact Iff.rfl
  | hang => exact Iff.rfl
  | read n k ih => exact forall_congr' ih
  | filter bs k ih => exact forall_congr' ih
  | writeAll bs k ih => simp only [Streams, StopsWith, ih, and_true]
  | flush k ih => simp only [Streams, StopsWith, ih, and_true]

theorem StopsWith.streams {G : ω → ε → Prop} {t : Coder ω ε α} (h : StopsWith G t) : t.Streams :=
  streams_iff.mpr (h.mono fun _ _ _ => trivial)

/-! ## two runs of one program -/

variable [WriteError ω] {dec : List UInt8 → δ → List UInt8 × δ} {w : ByteSink ω σ}
  {w' : ByteSink ω τ} {R : σ → τ → Prop}

/-- Where `w` succeeds, `w'` does on every related state. -/
structure Simulates (w : ByteSink ω σ) (w' : ByteSink ω τ) (R : σ → τ → Prop) : Prop where
  writeAll : ∀ bs s s' u, R s u → (w.writeAll bs).run s = (.ok (), s') →
    ∃ u', (w'.writeAll bs).run u = (.ok (), u') ∧ R s' u'
  flush : ∀ s s' u, R s u → w.flush.run s = (.ok (), s') →
    ∃ u', w'.flush.run u = (.ok (), u') ∧ R s' u'

/-- A program that succeeds on `w` succeeds on every writer that simulates it,
with the same result. -/
theorem Streams.run_sim {t : Coder ω ε α} (ht : Streams t) (hw : Simulates w w' R)
    {io io' : Io δ σ} {a : α} (hrun : (t.run dec w).run io = (.ok a, io')) {u : τ}
    (hR : R io.out u) :
    ∃ u', (t.run dec w').run { io with out := u } = (.ok a, { io' with out := u' }) ∧
      R io'.out u' := by
  induction t generalizing io u with
  | ret a' =>
      simp only [run, Run.pure_run, Prod.mk.injEq, Outcome.ok.injEq] at hrun
      obtain ⟨rfl, rfl⟩ := hrun
      exact ⟨u, rfl, hR⟩
  | fail e => simp [run] at hrun
  | hang => simp [run] at hrun
  | read n k ih =>
      simp only [run] at hrun ⊢
      exact ih _ (ht _) hrun hR
  | filter bs k ih =>
      simp only [run] at hrun ⊢
      exact ih _ (ht _) hrun hR
  | writeAll bs k ih =>
      obtain ⟨hok, g, hg⟩ := ht
      simp only [run] at hrun ⊢
      rcases hall : (w.writeAllCounted bs).run io.out with ⟨⟨n, _ | e⟩ | e | _ | _, s⟩
      · rw [hall] at hrun
        have hn := ByteSink.writeAllFrom_none hall
        rw [Nat.zero_add] at hn
        subst hn
        obtain ⟨u₁, hu₁, hR₁⟩ := hw.writeAll bs _ _ u hR (ByteSink.writeAll_ok.mpr hall)
        rw [ByteSink.writeAll_ok.mp hu₁]
        exact ih _ _ hok hrun hR₁
      · simp [hall, hg, run] at hrun
      · exact e.elim
      · simp [hall] at hrun
      · simp [hall] at hrun
  | flush k ih =>
      obtain ⟨hok, g, hg⟩ := ht
      simp only [run] at hrun ⊢
      rcases hflush : w.flush.run io.out with ⟨u₀ | e | _ | _, s⟩
      · rw [hflush] at hrun
        obtain ⟨u₁, hu₁, hR₁⟩ := hw.flush _ _ u hR hflush
        rw [hu₁]
        exact ih _ hok hrun hR₁
      · simp [hflush, hg, run] at hrun
      · simp [hflush] at hrun
      · simp [hflush] at hrun

/-- Where a writer keeps a record of what it takes, a recorder simulates it. -/
theorem simulates_recorder {I : List UInt8 → σ → Prop}
    (hwrite : ∀ bs d s n s', I d s → (w.write bs).run s = (.ok n, s') → I (d ++ bs.take n) s')
    (hflush : ∀ d s s', I d s → w.flush.run s = (.ok (), s') → I d s') :
    Simulates w ByteSink.recorder fun s d => I d s where
  writeAll := fun bs _ _ d hI h =>
    ⟨d ++ bs, ByteSink.recorder_writeAll bs d, ByteSink.writeAll_induction hwrite hI h⟩
  flush := fun _ _ d hI h => ⟨d, rfl, hflush d _ _ hI h⟩

/-- `w'` does what `w` does, except where that fails with an error in `P`. -/
structure Mends (P : ω → Prop) (w w' : ByteSink ω σ) : Prop where
  write : ∀ bs, Run.OrFails P (w.write bs) (w'.write bs)
  flush : Run.OrFails P w.flush w'.flush

namespace Mends

variable {P : ω → Prop} {v v' : ByteSink ω σ}

theorem writeAllFrom (h : Mends P v v') (n k : Nat) (bs : List UInt8) (s : σ) :
    (v.writeAllFrom n k bs).run s = (v'.writeAllFrom n k bs).run s ∨
      ∃ m e s', (v.writeAllFrom n k bs).run s = (.ok (m, some e), s') ∧ P e := by
  induction n generalizing k bs s with
  | zero => cases bs <;> exact .inl rfl
  | succ n ih =>
      cases bs with
      | nil => exact .inl rfl
      | cons b bs =>
          rw [ByteSink.writeAllFrom, ByteSink.writeAllFrom]
          rcases h.write (b :: bs) s with heq | ⟨e, s', hrun, he⟩
          · rw [Run.bind_run, Run.bind_run]
            simp only [Run.attempt, ← heq]
            rcases (v.write (b :: bs)).run s with ⟨j | e | _ | _, s₁⟩
            · dsimp only
              split
              · exact .inl rfl
              · exact ih _ _ _
            all_goals exact .inl rfl
          · exact .inr ⟨k, e, s', by rw [Run.bind_of_ok (Run.attempt_of_err hrun), Run.pure_run], he⟩

/-- Writing all of some bytes is mended with the writer. -/
theorem writeAll (h : Mends P v v') (bs : List UInt8) :
    Run.OrFails P (v.writeAll bs) (v'.writeAll bs) := by
  intro s
  rcases h.writeAllFrom bs.length 0 bs s with heq | ⟨m, e, s', hrun, he⟩
  · exact .inl (by simp only [ByteSink.writeAll, ByteSink.writeAllCounted, heq])
  · exact .inr ⟨e, s', by simp only [ByteSink.writeAll, ByteSink.writeAllCounted, hrun], he⟩

end Mends

/-- Against a writer that fails, a program goes as against the mended one, or
ends with what it makes of the failure. -/
theorem StopsWith.run_orFails {P : ω → Prop} {G : ω → ε → Prop} {v v' : ByteSink ω σ}
    {t : Coder ω ε α} (ht : t.StopsWith G) (dec : List UInt8 → δ → List UInt8 × δ)
    (hv : Mends P v v') :
    Run.OrFails (fun x => ∃ e, P e ∧ G e x) (t.run dec v) (t.run dec v') := by
  intro io
  induction t generalizing io with
  | ret a => exact .inl rfl
  | fail e => exact .inl rfl
  | hang => exact .inl rfl
  | read n k ih => exact ih _ (ht _) { io with rest := io.rest.drop n }
  | filter bs k ih => exact ih _ (ht _) { io with crypto := (dec bs io.crypto).2 }
  | writeAll bs k ih =>
      obtain ⟨hok, g, hg⟩ := ht
      have hcounted := hv.writeAllFrom bs.length 0 bs io.out
      simp only [run, ByteSink.writeAllCounted] at hcounted ⊢
      rcases hcounted with heq | ⟨m, e, s', hrun, he⟩
      · rw [← heq]
        rcases hall : (v.writeAllFrom bs.length 0 bs).run io.out with ⟨⟨n, _ | e⟩ | e | _ | _, s⟩
        · have hn := ByteSink.writeAllFrom_none hall
          rw [Nat.zero_add] at hn
          subst hn
          exact ih _ _ hok _
        · simp only [(hg n e).1]
          exact .inl rfl
        · exact e.elim
        all_goals exact .inl rfl
      · simp only [hrun, (hg m e).1]
        exact .inr ⟨g e, _, rfl, e, he, (hg m e).2⟩
  | flush k ih =>
      obtain ⟨hok, g, hg⟩ := ht
      simp only [run]
      rcases hv.flush io.out with heq | ⟨e, s', hrun, he⟩
      · rw [← heq]
        rcases v.flush.run io.out with ⟨u | e | _ | _, s⟩
        · exact ih _ hok _
        · simp only [(hg e).1]
          exact .inl rfl
        all_goals exact .inl rfl
      · simp only [hrun, (hg e).1]
        exact .inr ⟨g e, _, rfl, e, he, (hg e).2⟩

end Coder
