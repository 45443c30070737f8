import Unegg.Coder

/-!
# Unegg.Coder.Accepts

Running a program forward: from its run on the recorder, which takes
everything, to its run on a writer that takes one stream and perhaps no other
(`Accepts`).

A recorder only grows, so when a run has recorded a part of that stream, so had
it at every step before, and the other writer took each of its writes.
-/

namespace ByteSink

variable {ω σ : Type} [WriteError ω]

/-- The writer takes `total`, a piece at a time: `I d s` says that `d` has been
taken so far. -/
structure Accepts (w : ByteSink ω σ) (I : List UInt8 → σ → Prop) (total : List UInt8) : Prop where
  writeAll : ∀ d bs s, I d s → d ++ bs <+: total →
    ∃ s', (w.writeAll bs).run s = (.ok (), s') ∧ I (d ++ bs) s'
  flush : ∀ d s, I d s → ∃ s', w.flush.run s = (.ok (), s') ∧ I d s'

/-- A write that takes the whole buffer. -/
theorem writeAll_of_write {w : ByteSink ω σ} {bs : List UInt8} {s s' : σ} (hne : bs ≠ [])
    (h : (w.write bs).run s = (.ok bs.length, s')) : (w.writeAll bs).run s = (.ok (), s') := by
  obtain ⟨b, bs, rfl⟩ := List.exists_cons_of_ne_nil hne
  refine writeAll_ok.mpr ?_
  rw [writeAllCounted, List.length_cons, writeAllFrom, Prog.Run.bind_of_ok (Prog.Run.attempt_of_ok h)]
  simp

theorem writeAll_nil (w : ByteSink ω σ) (s : σ) : (w.writeAll []).run s = (.ok (), s) :=
  writeAll_ok.mpr (by rw [writeAllCounted, writeAllFrom_nil]; rfl)

theorem recorder_writeAllCounted (bs out : List UInt8) :
    ((recorder : ByteSink ω _).writeAllCounted bs).run out = (.ok (bs.length, none), out ++ bs) :=
  writeAll_ok.mp (recorder_writeAll bs out)

end ByteSink

namespace Coder

open Prog ByteSink

variable {ω ε α δ σ : Type} [WriteError ω] {dec : List UInt8 → δ → List UInt8 × δ}
  {w : ByteSink ω σ} {I : List UInt8 → σ → Prop} {total : List UInt8}

/-- What has been recorded stays recorded. -/
theorem recorder_grows (t : Coder ω ε α) {io io' : Io δ (List UInt8)} {o : Outcome ε α}
    (h : (t.run dec recorder).run io = (o, io')) : io.out <+: io'.out := by
  induction t generalizing io with
  | ret a =>
      simp only [Coder.run, Run.pure_run, Prod.mk.injEq] at h
      exact ⟨[], by rw [h.2, List.append_nil]⟩
  | fail e =>
      simp only [Coder.run, Run.throw_run, Prod.mk.injEq] at h
      exact ⟨[], by rw [h.2, List.append_nil]⟩
  | hang =>
      simp only [Coder.run, Run.hang_run, Prod.mk.injEq] at h
      exact ⟨[], by rw [h.2, List.append_nil]⟩
  | read n k ih =>
      have hk : ((k (io.rest.take n)).run dec recorder).run { io with rest := io.rest.drop n } =
          (o, io') := h
      have hgrows := ih _ hk
      exact hgrows
  | filter bs k ih =>
      have hk : ((k (dec bs io.crypto).1).run dec recorder).run
          { io with crypto := (dec bs io.crypto).2 } = (o, io') := h
      have hgrows := ih _ hk
      exact hgrows
  | writeAll bs k ih =>
      simp only [Coder.run, recorder_writeAllCounted] at h
      exact (List.prefix_append _ _).trans (ih _ _ h)
  | flush k ih =>
      simp only [Coder.run, recorder, Run.pure_run] at h
      exact ih none h

/-- **Running forward**: what a program does on the recorder it does on a
writer that takes what it records. -/
theorem run_accepts (hw : w.Accepts I total) (t : Coder ω ε α) {io io' : Io δ (List UInt8)}
    {o : Outcome ε α} (h : (t.run dec recorder).run io = (o, io')) (hpre : io'.out <+: total)
    {s : σ} (hI : I io.out s) :
    ∃ s', (t.run dec w).run ⟨io.rest, io.crypto, s⟩ = (o, ⟨io'.rest, io'.crypto, s'⟩) ∧
      I io'.out s' := by
  induction t generalizing io s with
  | ret a =>
      simp only [Coder.run, Run.pure_run, Prod.mk.injEq] at h
      obtain ⟨rfl, rfl⟩ := h
      exact ⟨s, rfl, hI⟩
  | fail e =>
      simp only [Coder.run, Run.throw_run, Prod.mk.injEq] at h
      obtain ⟨rfl, rfl⟩ := h
      exact ⟨s, rfl, hI⟩
  | hang =>
      simp only [Coder.run, Run.hang_run, Prod.mk.injEq] at h
      obtain ⟨rfl, rfl⟩ := h
      exact ⟨s, rfl, hI⟩
  | read n k ih =>
      have hk : ((k (io.rest.take n)).run dec recorder).run { io with rest := io.rest.drop n } =
          (o, io') := h
      exact ih _ hk hI
  | filter bs k ih =>
      have hk : ((k (dec bs io.crypto).1).run dec recorder).run
          { io with crypto := (dec bs io.crypto).2 } = (o, io') := h
      exact ih _ hk hI
  | writeAll bs k ih =>
      simp only [Coder.run, recorder_writeAllCounted] at h
      have hgrows := recorder_grows _ h
      obtain ⟨s₁, hwrite, hI₁⟩ := hw.writeAll _ bs _ hI (hgrows.trans hpre)
      simp only [Coder.run, writeAll_ok.mp hwrite]
      exact ih _ _ h hI₁
  | flush k ih =>
      simp only [Coder.run, recorder, Run.pure_run] at h
      obtain ⟨s₁, hflush, hI₁⟩ := hw.flush _ _ hI
      simp only [Coder.run, hflush]
      exact ih none h hI₁

end Coder
