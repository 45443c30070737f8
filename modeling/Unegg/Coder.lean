import Unegg.Run

/-!
# Coder

Programs that turn one byte stream into another: they read from a source, may
have bytes changed by a stateful filter on the way (a cipher, say), and write
to a sink.  A `Coder` is the tree of what such a program does next, so one
program can be run against any writer, and what it does can be told without
running it.

* `Coder.run` runs a program on a source, a filter and a `ByteSink`.
* `Delivers` says what a program that succeeds has delivered and returned,
  whatever its source, filter and writer do.
* `Streams` are the programs that give up on the first failed write; their
  runs depend on the writer only through its failures (`Streams.run_sim`).
* `InStep` relates two writers that a program cannot tell apart
  (`InStep.run`).

A write goes through `write_all`; the count the continuation gets is the
number of bytes that got through, which is all of them when there is no error.
-/

open Prog

/-- The error of a writer that takes nothing. -/
class WriteError (ω : Type) where
  writeZero : ω

/-- A byte sink over a state `σ`.  One `write` may take a part only. -/
structure ByteSink (ω σ : Type) where
  write : List UInt8 → Run σ ω Nat
  flush : Run σ ω Unit
  write_le : ∀ bs s n s', (write bs).run s = (.ok n, s') → n ≤ bs.length

namespace ByteSink

variable {ω σ : Type} [WriteError ω] (w : ByteSink ω σ)

/-- `write_all`, at most `n` writes: the bytes that got through, counted from
`sent`, and the error that stopped it. -/
def writeAllFrom : Nat → Nat → List UInt8 → Run σ Empty (Nat × Option ω)
  | _, sent, [] => pure (sent, none)
  | 0, _, _ :: _ => Run.hang
  | n + 1, sent, b :: bs => do
    match ← Run.attempt (w.write (b :: bs)) with
    | .error e => return (sent, some e)
    | .ok k =>
      if k = 0 then return (sent, some WriteError.writeZero)
      else writeAllFrom n (sent + k) ((b :: bs).drop k)

def writeAllCounted (bs : List UInt8) : Run σ Empty (Nat × Option ω) :=
  w.writeAllFrom bs.length 0 bs

/-- `write_all`. -/
def writeAll (bs : List UInt8) : Run σ ω Unit := ⟨fun s =>
  match (w.writeAllCounted bs).run s with
  | (.ok (_, none), s') => (.ok (), s')
  | (.ok (_, some e), s') => (.err e, s')
  | (.err e, _) => nomatch e
  | (.panic, s') => (.panic, s')
  | (.hang, s') => (.hang, s')⟩

/-- `I d s` says that the writer has taken `d`, and every write and flush
keeps it up to date. -/
structure Takes (I : List UInt8 → σ → Prop) : Prop where
  write_ok : ∀ bs d s n s', I d s → (w.write bs).run s = (.ok n, s') → I (d ++ bs.take n) s'
  write_err : ∀ bs d s e s', I d s → (w.write bs).run s = (.err e, s') → I d s'
  flush : ∀ d s, I d s → I d (w.flush.run s).2

/-- The writer that takes everything and keeps it. -/
def recorder : ByteSink ω (List UInt8) where
  write bs := ⟨fun out => (.ok bs.length, out ++ bs)⟩
  flush := pure ()
  write_le := by
    intro bs s n s' h
    simp only [Prod.mk.injEq, Outcome.ok.injEq] at h
    exact h.1.symm.le

variable {w}

@[simp] theorem writeAllFrom_nil (n k : Nat) : w.writeAllFrom n k [] = pure (k, none) := by
  cases n <;> rfl

/-- A `write_all` without an error got everything through. -/
theorem writeAllFrom_none {n k m : Nat} {bs : List UInt8} {s s' : σ}
    (h : (w.writeAllFrom n k bs).run s = (.ok (m, none), s')) : m = k + bs.length := by
  induction n generalizing k bs s with
  | zero =>
      cases bs with
      | nil =>
          simp only [writeAllFrom, Run.pure_run, Prod.mk.injEq, Outcome.ok.injEq] at h
          exact h.1.1.symm
      | cons b bs => simp [writeAllFrom] at h
  | succ n ih =>
      cases bs with
      | nil =>
          simp only [writeAllFrom, Run.pure_run, Prod.mk.injEq, Outcome.ok.injEq] at h
          exact h.1.1.symm
      | cons b bs =>
          rw [writeAllFrom, Run.bind_ok] at h
          obtain ⟨r, s₁, hr, h⟩ := h
          cases r with
          | error e => simp at h
          | ok j =>
              have hj := w.write_le _ _ _ _ (Run.attempt_ok.mp hr)
              simp only at h
              split at h
              · simp at h
              · have hm := ih h
                rw [List.length_drop] at hm
                omega

/-- What a `write_all` that ended has got through. -/
theorem Takes.writeAllFrom {I : List UInt8 → σ → Prop} (hw : w.Takes I) {n k m : Nat}
    {r : Option ω} {bs d : List UInt8} {s s' : σ} (hI : I d s)
    (h : (w.writeAllFrom n k bs).run s = (.ok (m, r), s')) :
    ∃ j, m = k + j ∧ j ≤ bs.length ∧ I (d ++ bs.take j) s' := by
  induction n generalizing k bs d s with
  | zero =>
      cases bs with
      | nil =>
          simp only [ByteSink.writeAllFrom, Run.pure_run, Prod.mk.injEq, Outcome.ok.injEq] at h
          exact ⟨0, h.1.1.symm, le_rfl, by simpa [← h.2] using hI⟩
      | cons b bs => simp [ByteSink.writeAllFrom] at h
  | succ n ih =>
      cases bs with
      | nil =>
          simp only [ByteSink.writeAllFrom, Run.pure_run, Prod.mk.injEq, Outcome.ok.injEq] at h
          exact ⟨0, h.1.1.symm, le_rfl, by simpa [← h.2] using hI⟩
      | cons b bs =>
          rw [ByteSink.writeAllFrom, Run.bind_ok] at h
          obtain ⟨r₁, s₁, hr, h⟩ := h
          cases r₁ with
          | error e =>
              have hI₁ := hw.write_err _ _ _ _ _ hI (Run.attempt_error.mp hr)
              simp only [Run.pure_run, Prod.mk.injEq, Outcome.ok.injEq] at h
              exact ⟨0, h.1.1.symm, Nat.zero_le _, by simpa [← h.2] using hI₁⟩
          | ok j =>
              have hj := w.write_le _ _ _ _ (Run.attempt_ok.mp hr)
              have hI₁ := hw.write_ok _ _ _ _ _ hI (Run.attempt_ok.mp hr)
              simp only at h
              split at h
              · next hzero =>
                  simp only [Run.pure_run, Prod.mk.injEq, Outcome.ok.injEq] at h
                  exact ⟨0, h.1.1.symm, Nat.zero_le _, by simpa [← h.2, hzero] using hI₁⟩
              · obtain ⟨i, hm, hi, hs'⟩ := ih hI₁ h
                rw [List.length_drop] at hi
                refine ⟨j + i, by omega, by omega, ?_⟩
                rwa [List.append_assoc, ← List.take_add] at hs'

/-- Writing all of some bytes succeeds if all of them are counted. -/
theorem writeAll_ok {bs : List UInt8} {s s' : σ} :
    (w.writeAll bs).run s = (.ok (), s') ↔
      (w.writeAllCounted bs).run s = (.ok (bs.length, none), s') := by
  rcases h : (w.writeAllCounted bs).run s with ⟨⟨m, _ | e⟩ | e | _ | _, s₁⟩
  · have hm := writeAllFrom_none h
    rw [Nat.zero_add] at hm
    simp [writeAll, h, hm]
  · simp [writeAll, h]
  · exact e.elim
  · simp [writeAll, h]
  · simp [writeAll, h]

/-- A `write_all` that succeeded is a run of writes that did. -/
theorem writeAll_induction {I : List UInt8 → σ → Prop}
    (hwrite : ∀ bs d s n s', I d s → (w.write bs).run s = (.ok n, s') → I (d ++ bs.take n) s')
    {bs d : List UInt8} {s s' : σ} (hI : I d s) (h : (w.writeAll bs).run s = (.ok (), s')) :
    I (d ++ bs) s' := by
  suffices hfrom : ∀ n k m bs d s, I d s → (w.writeAllFrom n k bs).run s = (.ok (m, none), s') →
      I (d ++ bs) s' from hfrom _ _ _ _ _ _ hI (writeAll_ok.mp h)
  intro n
  induction n with
  | zero =>
      intro k m bs d s hI h
      cases bs with
      | nil =>
          simp only [writeAllFrom, Run.pure_run, Prod.mk.injEq] at h
          rwa [← h.2, List.append_nil]
      | cons b bs => simp [writeAllFrom] at h
  | succ n ih =>
      intro k m bs d s hI h
      cases bs with
      | nil =>
          simp only [writeAllFrom, Run.pure_run, Prod.mk.injEq] at h
          rwa [← h.2, List.append_nil]
      | cons b bs =>
          rw [writeAllFrom, Run.bind_ok] at h
          obtain ⟨r, s₁, hr, h⟩ := h
          cases r with
          | error e => simp at h
          | ok j =>
              have hI₁ := hwrite _ _ _ _ _ hI (Run.attempt_ok.mp hr)
              simp only at h
              split at h
              · simp at h
              · have hI₂ := ih _ _ _ _ _ hI₁ h
                rwa [List.append_assoc, List.take_append_drop] at hI₂

omit [WriteError ω] in
/-- A recorder has what it took. -/
theorem takes_recorder : (recorder : ByteSink ω _).Takes fun d out => out = d where
  write_ok := by
    rintro bs d out n out' rfl h
    simp only [recorder, Prod.mk.injEq, Outcome.ok.injEq] at h
    rw [← h.1, ← h.2, List.take_length]
  write_err := by
    intro bs d out e out' _ h
    simp [recorder] at h
  flush := fun _ _ h => h

/-- A writer that always takes something takes everything. -/
theorem writeAll_total (hw : ∀ bs s, bs ≠ [] → ∃ n s', (w.write bs).run s = (.ok n, s') ∧ 0 < n)
    (bs : List UInt8) (s : σ) : ∃ s', (w.writeAll bs).run s = (.ok (), s') := by
  suffices h : ∀ n k bs s, bs.length ≤ n →
      ∃ m s', (w.writeAllFrom n k bs).run s = (.ok (m, none), s') by
    obtain ⟨m, s', hrun⟩ := h bs.length 0 bs s le_rfl
    have hm := writeAllFrom_none hrun
    rw [Nat.zero_add] at hm
    subst hm
    exact ⟨s', writeAll_ok.mpr hrun⟩
  intro n
  induction n with
  | zero =>
      intro k bs s hle
      obtain rfl : bs = [] := List.length_eq_zero_iff.mp (by omega)
      exact ⟨k, s, by simp⟩
  | succ n ih =>
      intro k bs s hle
      cases bs with
      | nil => exact ⟨k, s, by simp⟩
      | cons b bs =>
          obtain ⟨j, s₁, hrun, hpos⟩ := hw (b :: bs) s (by simp)
          rw [writeAllFrom, Run.bind_of_ok (Run.attempt_of_ok hrun)]
          simp only [if_neg (Nat.pos_iff_ne_zero.mp hpos)]
          refine ih _ _ _ ?_
          rw [List.length_drop]
          omega

/-- The recorder takes everything. -/
theorem recorder_writeAll (bs out : List UInt8) :
    ((recorder : ByteSink ω _).writeAll bs).run out = (.ok (), out ++ bs) := by
  cases bs with
  | nil => simp [writeAll, writeAllCounted]
  | cons b bs =>
      have hwrite : ((recorder : ByteSink ω _).write (b :: bs)).run out =
          (.ok (b :: bs).length, out ++ b :: bs) := rfl
      have hfrom : ((recorder : ByteSink ω _).writeAllCounted (b :: bs)).run out =
          (.ok ((b :: bs).length, none), out ++ b :: bs) := by
        rw [writeAllCounted, List.length_cons, writeAllFrom,
          Run.bind_of_ok (Run.attempt_of_ok hwrite)]
        simp
      simp [writeAll, hfrom]

/-- A `write_all` makes no other steps than its writes. -/
theorem steps_writeAllCounted {R : σ → σ → Prop} [Std.Refl R] [IsTrans σ R]
    (hw : ∀ bs, Run.Steps R (w.write bs)) (bs : List UInt8) :
    Run.Steps R (w.writeAllCounted bs) := by
  suffices h : ∀ n k bs, Run.Steps R (w.writeAllFrom n k bs) from h _ _ _
  intro n
  induction n with
  | zero =>
      intro k bs
      cases bs with
      | nil => exact .pure _
      | cons b bs => exact .hang
  | succ n ih =>
      intro k bs
      cases bs with
      | nil => exact .pure _
      | cons b bs =>
          refine .bind (.attempt (hw _)) fun r => ?_
          cases r with
          | error e => exact .pure _
          | ok j =>
              simp only
              split
              · exact .pure _
              · exact ih _ _

/-- Writing all of some bytes steps as the writes do. -/
theorem steps_writeAll {R : σ → σ → Prop} [Std.Refl R] [IsTrans σ R]
    (hw : ∀ bs, Run.Steps R (w.write bs)) (bs : List UInt8) : Run.Steps R (w.writeAll bs) := by
  intro s
  have h := steps_writeAllCounted hw bs s
  simp only [writeAll]
  rcases hrun : (w.writeAllCounted bs).run s with ⟨⟨n, _ | e⟩ | e | _ | _, s'⟩
  all_goals first | exact e.elim | rwa [hrun] at h

end ByteSink

/-- A program that reads, has bytes filtered, and writes.  `ω` are the errors
of its writer, `ε` its own. -/
inductive Coder (ω ε α : Type) where
  | ret (a : α)
  | fail (e : ε)
  | hang
  | read (n : Nat) (k : List UInt8 → Coder ω ε α)
  | filter (bs : List UInt8) (k : List UInt8 → Coder ω ε α)
  | writeAll (bs : List UInt8) (k : Nat → Option ω → Coder ω ε α)
  | flush (k : Option ω → Coder ω ε α)

/-- What a program runs on: the source that is left, the filter and the sink. -/
structure Io (δ σ : Type) where
  rest : List UInt8
  crypto : δ
  out : σ

namespace Coder

variable {ω ε ε' α β γ δ σ τ : Type}

/-! ## building programs -/

def bind (f : α → Coder ω ε β) : Coder ω ε α → Coder ω ε β
  | ret a => f a
  | fail e => fail e
  | hang => hang
  | read n k => read n fun bs => bind f (k bs)
  | filter bs k => filter bs fun bs' => bind f (k bs')
  | writeAll bs k => writeAll bs fun n r => bind f (k n r)
  | flush k => flush fun r => bind f (k r)

instance : Monad (Coder ω ε) where
  pure := ret
  bind t f := bind f t

/-- Relabel the error. -/
def mapErr (f : ε → ε') : Coder ω ε α → Coder ω ε' α
  | ret a => ret a
  | fail e => fail (f e)
  | hang => hang
  | read n k => read n fun bs => mapErr f (k bs)
  | filter bs k => filter bs fun bs' => mapErr f (k bs')
  | writeAll bs k => writeAll bs fun n r => mapErr f (k n r)
  | flush k => flush fun r => mapErr f (k r)

/-- Repeat `body` until it asks for the end, at most `n` times. -/
def loop (body : β → Coder ω ε (Flow β γ)) : Nat → β → Coder ω ε γ
  | 0, _ => hang
  | n + 1, b => do
      match ← body b with
      | .next b' => loop body n b'
      | .done c => return c

/-- Keep a value up to date with the bytes that get through. -/
def tally (f : β → List UInt8 → β) : β → Coder ω ε α → Coder ω ε (α × β)
  | b, ret a => ret (a, b)
  | _, fail e => fail e
  | _, hang => hang
  | b, read n k => read n fun bs => tally f b (k bs)
  | b, filter bs k => filter bs fun bs' => tally f b (k bs')
  | b, writeAll bs k => writeAll bs fun n r => tally f (f b (bs.take n)) (k n r)
  | b, flush k => flush fun r => tally f b (k r)

/-! ## what a program delivers -/

/-- Whatever a program that has delivered `acc` meets on the way: when it
returns `a`, having delivered `d` in all, `Q d a`. -/
def Delivers (Q : List UInt8 → α → Prop) : List UInt8 → Coder ω ε α → Prop
  | acc, ret a => Q acc a
  | _, fail _ | _, hang => True
  | acc, read _ k => ∀ bs, Delivers Q acc (k bs)
  | acc, filter _ k => ∀ bs, Delivers Q acc (k bs)
  | acc, writeAll bs k => ∀ n r, n ≤ bs.length → (r = none → n = bs.length) →
      Delivers Q (acc ++ bs.take n) (k n r)
  | acc, flush k => ∀ r, Delivers Q acc (k r)

namespace Delivers

variable {Q Q' : List UInt8 → α → Prop} {acc : List UInt8} {t : Coder ω ε α}

theorem mono (h : Delivers Q acc t) (hQ : ∀ d a, Q d a → Q' d a) : Delivers Q' acc t := by
  induction t generalizing acc with
  | ret a => exact hQ acc a h
  | fail e => trivial
  | hang => trivial
  | read n k ih => exact fun bs => ih bs (h bs)
  | filter bs k ih => exact fun bs' => ih bs' (h bs')
  | writeAll bs k ih => exact fun n r hn hr => ih n r (h n r hn hr)
  | flush k ih => exact fun r => ih r (h r)

theorem bind {f : α → Coder ω ε β} {Q : List UInt8 → β → Prop}
    (h : Delivers (fun d a => Delivers Q d (f a)) acc t) : Delivers Q acc (t >>= f) := by
  change Delivers Q acc (Coder.bind f t)
  induction t generalizing acc with
  | ret a => exact h
  | fail e => trivial
  | hang => trivial
  | read n k ih => exact fun bs => ih bs (h bs)
  | filter bs k ih => exact fun bs' => ih bs' (h bs')
  | writeAll bs k ih => exact fun n r hn hr => ih n r (h n r hn hr)
  | flush k ih => exact fun r => ih r (h r)

theorem mapErr {f : ε → ε'} (h : Delivers Q acc t) : Delivers Q acc (mapErr f t) := by
  induction t generalizing acc with
  | ret a => exact h
  | fail e => trivial
  | hang => trivial
  | read n k ih => exact fun bs => ih bs (h bs)
  | filter bs k ih => exact fun bs' => ih bs' (h bs')
  | writeAll bs k ih => exact fun n r hn hr => ih n r (h n r hn hr)
  | flush k ih => exact fun r => ih r (h r)

/-- An invariant of the loop state and what has been delivered. -/
theorem loop {body : β → Coder ω ε (Flow β γ)} {I : List UInt8 → β → Prop}
    {Q : List UInt8 → γ → Prop}
    (hbody : ∀ acc b, I acc b → Delivers (fun d f => match f with
      | .next b' => I d b'
      | .done c => Q d c) acc (body b)) (n : Nat) {b : β} (h : I acc b) :
    Delivers Q acc (loop body n b) := by
  induction n generalizing acc b with
  | zero => trivial
  | succ n ih =>
      refine bind (mono (hbody acc b h) fun d f hf => ?_)
      cases f with
      | next b' => exact ih hf
      | done c => exact hf

/-- A tally has taken in exactly what was delivered. -/
theorem tally {f : β → List UInt8 → β} {b₀ : β} (hnil : f b₀ [] = b₀)
    (hf : ∀ xs ys, f (f b₀ xs) ys = f b₀ (xs ++ ys)) (t : Coder ω ε α) :
    Delivers (fun d p => p.2 = f b₀ d) [] (tally f b₀ t) := by
  suffices h : ∀ acc, Delivers (fun d p => p.2 = f b₀ d) acc (Coder.tally f (f b₀ acc) t) by
    have h₀ := h []
    rwa [hnil] at h₀
  induction t with
  | ret a => exact fun acc => rfl
  | fail e => exact fun acc => trivial
  | hang => exact fun acc => trivial
  | read n k ih => exact fun acc bs => ih bs acc
  | filter bs k ih => exact fun acc bs' => ih bs' acc
  | writeAll bs k ih =>
      intro acc n r _ _
      have hn := ih n r (acc ++ bs.take n)
      rwa [← hf] at hn
  | flush k ih => exact fun acc r => ih r acc

end Delivers

/-! ## running programs -/

variable [WriteError ω] (dec : List UInt8 → δ → List UInt8 × δ)

/-- Run a program: `dec` is the filter, `w` the sink. -/
def run (w : ByteSink ω σ) : Coder ω ε α → Run (Io δ σ) ε α
  | ret a => pure a
  | fail e => Run.throw e
  | hang => Run.hang
  | read n k => ⟨fun io => (run w (k (io.rest.take n))).run { io with rest := io.rest.drop n }⟩
  | filter bs k => ⟨fun io =>
      (run w (k (dec bs io.crypto).1)).run { io with crypto := (dec bs io.crypto).2 }⟩
  | writeAll bs k => ⟨fun io =>
      match (w.writeAllCounted bs).run io.out with
      | (.ok (n, r), s) => (run w (k n r)).run { io with out := s }
      | (.err e, _) => nomatch e
      | (.panic, s) => (.panic, { io with out := s })
      | (.hang, s) => (.hang, { io with out := s })⟩
  | flush k => ⟨fun io =>
      match w.flush.run io.out with
      | (.ok _, s) => (run w (k none)).run { io with out := s }
      | (.err e, s) => (run w (k (some e))).run { io with out := s }
      | (.panic, s) => (.panic, { io with out := s })
      | (.hang, s) => (.hang, { io with out := s })⟩

variable {dec} {w : ByteSink ω σ}

theorem run_bind (t : Coder ω ε α) (f : α → Coder ω ε β) :
    (t >>= f).run dec w = t.run dec w >>= fun a => (f a).run dec w := by
  change (bind f t).run dec w = _
  have h : ∀ io, ((bind f t).run dec w).run io =
      (t.run dec w >>= fun a => (f a).run dec w).run io := by
    induction t with
    | ret a => exact fun _ => rfl
    | fail e => exact fun _ => rfl
    | hang => exact fun _ => rfl
    | read n k ih => exact fun io => ih _ _
    | filter bs k ih => exact fun io => ih _ _
    | writeAll bs k ih =>
        intro io
        simp only [bind, run, Run.bind_run]
        rcases hw : (w.writeAllCounted bs).run io.out with ⟨⟨n, r⟩ | e | _ | _, s⟩
        · exact ih n r _
        · exact e.elim
        · rfl
        · rfl
    | flush k ih =>
        intro io
        simp only [bind, run, Run.bind_run]
        rcases hw : w.flush.run io.out with ⟨u | e | _ | _, s⟩
        · exact ih none _
        · exact ih (some e) _
        · rfl
        · rfl
  cases hl : (bind f t).run dec w
  cases hr : (t.run dec w >>= fun a => (f a).run dec w)
  congr 1
  funext io
  have := h io
  rwa [hl, hr] at this

/-- A loop is run as a loop. -/
theorem run_loop (body : β → Coder ω ε (Flow β γ)) (n : Nat) (b : β) :
    (loop body n b).run dec w = Run.loop (fun b => (body b).run dec w) n b := by
  induction n generalizing b with
  | zero => rfl
  | succ n ih =>
      rw [loop, Run.loop, run_bind]
      congr 1
      funext f
      cases f with
      | next b' => exact ih b'
      | done c => rfl

/-- A run makes no other steps in the sink than its writes and flushes. -/
theorem steps_run {R : σ → σ → Prop} [Std.Refl R] [IsTrans σ R]
    (hw : ∀ bs, Run.Steps R (w.write bs)) (hf : Run.Steps R w.flush) (t : Coder ω ε α) :
    Run.Steps (fun io io' => R io.out io'.out) (t.run dec w) := by
  induction t with
  | ret a => exact fun io => Std.Refl.refl io.out
  | fail e => exact fun io => Std.Refl.refl io.out
  | hang => exact fun io => Std.Refl.refl io.out
  | read n k ih => exact fun io => ih (io.rest.take n) { io with rest := io.rest.drop n }
  | filter bs k ih =>
      exact fun io => ih (dec bs io.crypto).1 { io with crypto := (dec bs io.crypto).2 }
  | writeAll bs k ih =>
      intro io
      have h₁ := ByteSink.steps_writeAllCounted hw bs io.out
      simp only [run]
      rcases h : (w.writeAllCounted bs).run io.out with ⟨⟨n, r⟩ | e | _ | _, s⟩
      · rw [h] at h₁
        exact IsTrans.trans _ _ _ h₁ (ih n r { io with out := s })
      · exact e.elim
      · rwa [h] at h₁
      · rwa [h] at h₁
  | flush k ih =>
      intro io
      have h₁ := hf io.out
      simp only [run]
      rcases h : w.flush.run io.out with ⟨u | e | _ | _, s⟩
      · rw [h] at h₁
        exact IsTrans.trans _ _ _ h₁ (ih none { io with out := s })
      · rw [h] at h₁
        exact IsTrans.trans _ _ _ h₁ (ih (some e) { io with out := s })
      · rwa [h] at h₁
      · rwa [h] at h₁

/-- What a program delivers is what the writer has taken when it returns. -/
theorem Delivers.run {Q : List UInt8 → α → Prop} {acc : List UInt8} {t : Coder ω ε α}
    {I : List UInt8 → σ → Prop} (hw : w.Takes I) (h : Delivers Q acc t) {io io' : Io δ σ}
    (hI : I acc io.out) {a : α} (hrun : (t.run dec w).run io = (.ok a, io')) :
    ∃ d, I d io'.out ∧ Q d a := by
  induction t generalizing acc io with
  | ret a' =>
      simp only [Coder.run, Run.pure_run, Prod.mk.injEq, Outcome.ok.injEq] at hrun
      obtain ⟨rfl, rfl⟩ := hrun
      exact ⟨acc, hI, h⟩
  | fail e => simp [Coder.run] at hrun
  | hang => simp [Coder.run] at hrun
  | read n k ih =>
      simp only [Coder.run] at hrun
      exact ih _ (h _) (by exact hI) hrun
  | filter bs k ih =>
      simp only [Coder.run] at hrun
      exact ih _ (h _) (by exact hI) hrun
  | writeAll bs k ih =>
      simp only [Coder.run] at hrun
      rcases hall : (w.writeAllCounted bs).run io.out with ⟨⟨n, r⟩ | e | _ | _, s⟩
      · rw [hall] at hrun
        obtain ⟨j, hj, hle, hI'⟩ := hw.writeAllFrom hI hall
        rw [Nat.zero_add] at hj
        subst hj
        have hnone : r = none → n = bs.length := by
          rintro rfl
          have := ByteSink.writeAllFrom_none hall
          omega
        exact ih n r (h n r hle hnone) (by exact hI') hrun
      · exact e.elim
      · simp [hall] at hrun
      · simp [hall] at hrun
  | flush k ih =>
      simp only [Coder.run] at hrun
      have hI' := hw.flush acc io.out hI
      rcases hflush : w.flush.run io.out with ⟨u | e | _ | _, s⟩
      · rw [hflush] at hrun hI'
        exact ih none (h none) (by exact hI') hrun
      · rw [hflush] at hrun hI'
        exact ih (some e) (h (some e)) (by exact hI') hrun
      · simp [hflush] at hrun
      · simp [hflush] at hrun

end Coder
