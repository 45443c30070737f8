import Unegg.Coder.Bounded

/-!
# Coder.Settles

Programs that come to an end.

A program that decodes may put out as much as it likes, so whether it ends can
depend on its writer: a writer that refuses at some point ends what would go on
for ever.  `Settles Q src room` says of a program alone that it ends when its
source has `src` bytes left and its writer takes at most `room` more, and then
with `Q`; its rules follow the text of the program (`Settles.bind`,
`Settles.loop`).  `Settles.run` is what it is for: on a writer that pays for what
it takes (`ByteSink.Pays`) the run of such a program comes back, and the writer's
invariant holds again.
-/

open Prog

namespace ByteSink

variable {ω σ τ : Type}

/-- A writer that comes back from every call, keeps `I`, and takes what it takes
out of `room`. -/
structure Pays (w : ByteSink ω σ) (I : σ → Prop) (room : σ → Nat) : Prop where
  write : ∀ bs s, I s → Run.EndsIn (fun n s' => I s' ∧ n + room s' ≤ room s)
    (fun s' => I s' ∧ room s' ≤ room s) ((w.write bs).run s)
  flush : ∀ s, I s → Run.EndsIn (fun _ s' => I s' ∧ room s' ≤ room s)
    (fun s' => I s' ∧ room s' ≤ room s) (w.flush.run s)

/-- What a `write_all` of `bs` has come to: how much was got through, and why no
more. -/
structure Sent (I : σ → Prop) (room : σ → Nat) (bs : List UInt8) (s : σ) (r : Nat × Option ω)
    (s' : σ) : Prop where
  kept : I s'
  paid : r.1 + room s' ≤ room s
  length_le : r.1 ≤ bs.length
  whole : r.2 = none → r.1 = bs.length

variable [WriteError ω] {w : ByteSink ω σ} {I : σ → Prop} {room : σ → Nat}

theorem Pays.writeAllCounted (hw : w.Pays I room) (bs : List UInt8) {s : σ} (hI : I s) :
    Run.EndsIn (Sent I room bs s) (fun _ => False) ((w.writeAllCounted bs).run s) := by
  suffices h : ∀ n k bs s, bs.length ≤ n → I s → Run.EndsIn
      (fun r s' => I s' ∧ r.1 + room s' ≤ k + room s ∧ r.1 ≤ k + bs.length ∧
        (r.2 = none → r.1 = k + bs.length)) (fun _ => False) ((w.writeAllFrom n k bs).run s) by
    refine (h bs.length 0 bs s le_rfl hI).mono (fun r s' h => ?_) fun _ => id
    simp only [Nat.zero_add] at h
    exact ⟨h.1, h.2.1, h.2.2.1, h.2.2.2⟩
  intro n
  induction n with
  | zero =>
      intro k bs s hle hI
      obtain rfl : bs = [] := List.length_eq_zero_iff.mp (by omega)
      exact .ok ⟨hI, le_rfl, le_rfl, fun _ => rfl⟩
  | succ n ih =>
      intro k bs s hle hI
      cases bs with
      | nil => exact .ok ⟨hI, le_rfl, le_rfl, fun _ => rfl⟩
      | cons b bs =>
          have hwrite := hw.write (b :: bs) s hI
          have htaken := w.write_le (b :: bs) s
          rw [writeAllFrom, Run.bind_run, Run.attempt]
          dsimp only
          generalize (w.write (b :: bs)).run s = r at hwrite htaken
          cases hwrite with
          | err h => exact .ok ⟨h.1, by dsimp only; omega, Nat.le_add_right _ _, by simp⟩
          | ok h =>
              rename_i j s₁
              have hj := htaken j s₁ rfl
              dsimp only
              by_cases hzero : j = 0
              · rw [if_pos hzero]
                exact .ok ⟨h.1, by dsimp only; omega, Nat.le_add_right _ _, by simp⟩
              · rw [if_neg hzero]
                have hlen := List.length_drop (i := j) (l := b :: bs)
                refine (ih (k + j) ((b :: bs).drop j) s₁ (by omega) h.1).mono
                  (fun r s' h' => ?_) fun _ => id
                refine ⟨h'.1, ?_, ?_, fun hr => ?_⟩
                · omega
                · omega
                · have := h'.2.2.2 hr
                  omega

end ByteSink

namespace Coder

variable {ω ε ε' α β γ δ σ : Type}

/-- Whatever a program meets on the way, with `src` bytes to be read and at most
`room` to be written: it comes to an end, and with `Q` of its value and of what
is left of both. -/
def Settles (Q : α → Nat → Nat → Prop) : Coder ω ε α → Nat → Nat → Prop
  | ret a, src, room => Q a src room
  | fail _, _, _ => True
  | hang, _, _ => False
  | read n k, src, room => ∀ bs, bs.length = min n src → (k bs).Settles Q (src - n) room
  | filter bs k, src, room => ∀ bs', bs'.length = bs.length → (k bs').Settles Q src room
  | writeAll bs k, src, room => ∀ n r room', n + room' ≤ room → n ≤ bs.length →
      (r = none → n = bs.length) → (k n r).Settles Q src room'
  | flush k, src, room => ∀ r room', room' ≤ room → (k r).Settles Q src room'

namespace Settles

variable {Q Q' : α → Nat → Nat → Prop} {t : Coder ω ε α} {src room : Nat}

theorem mono (h : t.Settles Q src room) (hQ : ∀ a s r, r ≤ room → Q a s r → Q' a s r) :
    t.Settles Q' src room := by
  induction t generalizing src room with
  | ret a => exact hQ a src room le_rfl h
  | fail e => trivial
  | hang => exact h
  | read n k ih => exact fun bs hbs => ih bs (h bs hbs) hQ
  | filter bs k ih => exact fun bs' hbs => ih bs' (h bs' hbs) hQ
  | writeAll bs k ih =>
      exact fun n r room' hroom hn hr => ih n r (h n r room' hroom hn hr) fun a s r' hr' =>
        hQ a s r' (by omega)
  | flush k ih =>
      exact fun r room' hroom => ih r (h r room' hroom) fun a s r' hr' =>
        hQ a s r' (hr'.trans hroom)

theorem bind {Q : β → Nat → Nat → Prop} {f : α → Coder ω ε β}
    (h : t.Settles (fun a s r => (f a).Settles Q s r) src room) : (t >>= f).Settles Q src room := by
  change (Coder.bind f t).Settles Q src room
  induction t generalizing src room with
  | ret a => exact h
  | fail e => trivial
  | hang => exact h
  | read n k ih => exact fun bs hbs => ih bs (h bs hbs)
  | filter bs k ih => exact fun bs' hbs => ih bs' (h bs' hbs)
  | writeAll bs k ih => exact fun n r room' hroom hn hr => ih n r (h n r room' hroom hn hr)
  | flush k ih => exact fun r room' hroom => ih r (h r room' hroom)

theorem mapErr {f : ε → ε'} (h : t.Settles Q src room) : (mapErr f t).Settles Q src room := by
  induction t generalizing src room with
  | ret a => exact h
  | fail e => trivial
  | hang => exact h
  | read n k ih => exact fun bs hbs => ih bs (h bs hbs)
  | filter bs k ih => exact fun bs' hbs => ih bs' (h bs' hbs)
  | writeAll bs k ih => exact fun n r room' hroom hn hr => ih n r (h n r room' hroom hn hr)
  | flush k ih => exact fun r room' hroom => ih r (h r room' hroom)

theorem tally {f : β → List UInt8 → β} (b : β) (h : t.Settles Q src room) :
    (tally f b t).Settles (fun p => Q p.1) src room := by
  induction t generalizing src room b with
  | ret a => exact h
  | fail e => trivial
  | hang => exact h
  | read n k ih => exact fun bs hbs => ih bs b (h bs hbs)
  | filter bs k ih => exact fun bs' hbs => ih bs' b (h bs' hbs)
  | writeAll bs k ih =>
      exact fun n r room' hroom hn hr => ih n r (f b (bs.take n)) (h n r room' hroom hn hr)
  | flush k ih => exact fun r room' hroom => ih r b (h r room' hroom)

/-- Passes that keep `I` and lower a measure end a loop. -/
theorem loop {body : β → Coder ω ε (Flow β γ)} {I : β → Nat → Nat → Prop}
    {Q : γ → Nat → Nat → Prop} (μ : β → Nat → Nat → Nat)
    (hbody : ∀ b s r, I b s r → (body b).Settles
      (fun f s' r' => f.Meets (fun b' => I b' s' r' ∧ μ b' s' r' < μ b s r) (Q · s' r')) s r)
    {n : Nat} {b : β} (hI : I b src room) (hn : μ b src room < n) :
    (loop body n b).Settles Q src room := by
  induction n generalizing b src room with
  | zero => omega
  | succ n ih =>
      refine bind ((hbody b src room hI).mono fun f s r _ h => ?_)
      cases f with
      | next b' => exact ih h.1 (Nat.lt_of_lt_of_le h.2 (Nat.le_of_lt_succ hn))
      | done c => exact h

/-- **A program that settles comes back** from its run on a writer that pays. -/
theorem run [WriteError ω] {dec : List UInt8 → δ → List UInt8 × δ}
    (hdec : ∀ bs c, (dec bs c).1.length = bs.length) {w : ByteSink ω σ} {I : σ → Prop}
    {cost : σ → Nat} (hw : w.Pays I cost) {io : Io δ σ}
    (h : t.Settles Q io.rest.length (cost io.out)) (hI : I io.out) :
    Run.EndsIn (fun a io' => I io'.out ∧ Q a io'.rest.length (cost io'.out))
      (fun io' => I io'.out) ((t.run dec w).run io) := by
  obtain ⟨rest, crypto, out⟩ := io
  dsimp only at h hI
  induction t generalizing rest crypto out with
  | ret a => exact .ok ⟨hI, h⟩
  | fail e => exact .err hI
  | hang => exact h.elim
  | read n k ih =>
      refine ih _ _ _ _ ?_ hI
      rw [List.length_drop]
      exact h _ List.length_take
  | filter bs k ih => exact ih _ _ _ _ (h _ (hdec bs crypto)) hI
  | writeAll bs k ih =>
      have hall := hw.writeAllCounted bs hI
      simp only [Coder.run]
      generalize (w.writeAllCounted bs).run out = r at hall
      cases hall with
      | ok hsent => exact ih _ _ _ _ _ (h _ _ _ hsent.paid hsent.length_le hsent.whole) hsent.kept
      | err h => exact h.elim
  | flush k ih =>
      have hflush := hw.flush out hI
      simp only [Coder.run]
      generalize w.flush.run out = r at hflush
      cases hflush with
      | ok hkept => exact ih _ _ _ _ (h _ _ hkept.2) hkept.1
      | err hkept => exact ih _ _ _ _ (h _ _ hkept.2) hkept.1

end Settles

end Coder
