import Unegg.Coder

/-!
# Coder.Lockstep

One program on two writers.  When related states of the writers end every
`write_all` and every flush alike, and are related again, a program cannot tell
the writers apart: its runs end alike too (`InStep.run`), whatever it makes of
an error.
-/

open Prog

namespace Coder

variable {ω ε α δ σ τ : Type} [WriteError ω]

/-- Two writers in step: `R` holds again after each `write_all` and each flush,
and they end alike. -/
structure InStep (w : ByteSink ω σ) (w' : ByteSink ω τ) (R : σ → τ → Prop) : Prop where
  writeAll : ∀ bs s t, R s t →
    Run.Alike (fun _ => R) R ((w.writeAllCounted bs).run s) ((w'.writeAllCounted bs).run t)
  flush : ∀ s t, R s t → Run.Alike (fun _ => R) R (w.flush.run s) (w'.flush.run t)

/-- The same source and filter, and related sinks. -/
structure SameIo (R : σ → τ → Prop) (io : Io δ σ) (io' : Io δ τ) : Prop where
  rest : io.rest = io'.rest
  crypto : io.crypto = io'.crypto
  out : R io.out io'.out

namespace InStep

variable {w : ByteSink ω σ} {w' : ByteSink ω τ} {R : σ → τ → Prop}

theorem writeAllFrom (hwrite : ∀ bs s t, R s t →
      Run.Alike (fun _ => R) R ((w.write bs).run s) ((w'.write bs).run t))
    (n k : Nat) (bs : List UInt8) {s : σ} {t : τ} (hR : R s t) :
    Run.Alike (fun _ => R) R ((w.writeAllFrom n k bs).run s) ((w'.writeAllFrom n k bs).run t) := by
  induction n generalizing k bs s t with
  | zero =>
      cases bs with
      | nil => exact .ok hR
      | cons b bs => exact .hang hR
  | succ n ih =>
      cases bs with
      | nil => exact .ok hR
      | cons b bs =>
          rw [ByteSink.writeAllFrom, ByteSink.writeAllFrom]
          refine .bind (hwrite (b :: bs) s t hR).attempt fun r s₁ t₁ hr => ?_
          cases r with
          | error e => exact .ok (hr.2 e rfl)
          | ok j =>
              dsimp only
              split
              · exact .ok (hr.1 j rfl)
              · exact ih _ _ (hr.1 j rfl)

/-- Writers that end every single write alike. -/
theorem of_write (hwrite : ∀ bs s t, R s t →
      Run.Alike (fun _ => R) R ((w.write bs).run s) ((w'.write bs).run t))
    (hflush : ∀ s t, R s t → Run.Alike (fun _ => R) R (w.flush.run s) (w'.flush.run t)) :
    InStep w w' R where
  writeAll := fun bs _ _ hR => writeAllFrom hwrite bs.length 0 bs hR
  flush := hflush

/-- **A program cannot tell writers apart that are in step.** -/
theorem run (h : InStep w w' R) (dec : List UInt8 → δ → List UInt8 × δ) (t : Coder ω ε α)
    {io : Io δ σ} {io' : Io δ τ} (hio : SameIo R io io') :
    Run.Alike (fun _ => SameIo R) (SameIo R) ((t.run dec w).run io) ((t.run dec w').run io') := by
  obtain ⟨rest, crypto, out⟩ := io
  obtain ⟨rest', crypto', out'⟩ := io'
  obtain ⟨rfl, rfl, hout⟩ := hio
  dsimp only at hout
  induction t generalizing rest crypto out out' with
  | ret a => exact .ok ⟨rfl, rfl, hout⟩
  | fail e => exact .err ⟨rfl, rfl, hout⟩
  | hang => exact .hang ⟨rfl, rfl, hout⟩
  | read n k ih => exact ih _ _ _ _ _ hout
  | filter bs k ih => exact ih _ _ _ _ _ hout
  | writeAll bs k ih =>
      have hall := h.writeAll bs out out' hout
      simp only [Coder.run]
      generalize (w.writeAllCounted bs).run out = p at hall
      generalize (w'.writeAllCounted bs).run out' = q at hall
      cases hall with
      | ok hR => exact ih _ _ _ _ _ _ hR
      | err hR => rename_i e _ _; exact e.elim
      | panic hR => exact .panic ⟨rfl, rfl, hR⟩
      | hang hR => exact .hang ⟨rfl, rfl, hR⟩
  | flush k ih =>
      have hflush := h.flush out out' hout
      simp only [Coder.run]
      generalize w.flush.run out = p at hflush
      generalize w'.flush.run out' = q at hflush
      cases hflush with
      | ok hR => exact ih _ _ _ _ _ hR
      | err hR => exact ih _ _ _ _ _ hR
      | panic hR => exact .panic ⟨rfl, rfl, hR⟩
      | hang hR => exact .hang ⟨rfl, rfl, hR⟩

end InStep

end Coder
