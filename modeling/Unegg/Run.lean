import Mathlib

/-!
# Unegg.Run

A small library for programs that change a state, can fail with an error
value, and loop.  A `Run σ ε α` takes a state `σ` and ends in an `Outcome`
together with the state it leaves behind; a failure keeps the state, because
the effects that came before it have happened.

Besides a value and an error, an outcome can be

* `panic` — the program aborted (an index out of range, an underflow);
* `hang` — a loop was cut off at its iteration bound without having ended.

Both are outcomes of their own, so that "it never panics" and "it always
ends" are statements about the model and not consequences of a default value.

Proofs about a `Run` use the bind equations (`bind_ok`, `bind_err`), which peel
one sequential step off, or the rules that follow the program text: for a
relation along every run (`Steps`), for an invariant of the runs that return
(`Returns`), and for two programs run side by side (`Alike`).
-/

namespace Prog

/-- How a computation ends. -/
inductive Outcome (ε α : Type) where
  | ok (a : α)
  | err (e : ε)
  | panic
  | hang
  deriving Repr, DecidableEq

namespace Outcome

/-- Relabel the error of an outcome. -/
def mapErr {ε ε' α : Type} (f : ε → ε') : Outcome ε α → Outcome ε' α
  | ok a => ok a
  | err e => err (f e)
  | panic => panic
  | hang => hang

/-- Renaming the errors neither makes nor loses a value. -/
@[simp] theorem mapErr_eq_ok {ε ε' α : Type} {f : ε → ε'} {o : Outcome ε α} {a : α} :
    o.mapErr f = ok a ↔ o = ok a := by
  cases o <;> simp [mapErr]

/-- Change the value of an outcome. -/
def map {ε α β : Type} (f : α → β) : Outcome ε α → Outcome ε β
  | ok a => ok (f a)
  | err e => err e
  | panic => panic
  | hang => hang

/-- The computation came back to its caller, with a value or with an error. -/
def returned {ε α : Type} : Outcome ε α → Bool
  | ok _ | err _ => true
  | panic | hang => false

end Outcome

/-- What a loop body asks for: another pass from a new loop state, or the end
of the loop with a result. -/
inductive Flow (β γ : Type) where
  | next (b : β)
  | done (c : γ)
  deriving Repr, DecidableEq

/-- What becomes of a pass: `N` of the state of the next one, or `D` of the result. -/
def Flow.Meets {β γ : Type} (N : β → Prop) (D : γ → Prop) : Flow β γ → Prop
  | next b => N b
  | done c => D c

/-- What a step meets may be weakened. -/
theorem Flow.Meets.mono {β γ : Type} {N N' : β → Prop} {D D' : γ → Prop} {f : Flow β γ}
    (h : f.Meets N D) (hN : ∀ b, N b → N' b) (hD : ∀ c, D c → D' c) : f.Meets N' D' := by
  cases f with
  | next b => exact hN b h
  | done c => exact hD c h

/-- A computation over a state `σ` that can fail with an `ε`. -/
structure Run (σ ε α : Type) where
  run : σ → Outcome ε α × σ

namespace Run

variable {σ τ ε ε' α β γ : Type}

/-! ## Primitives -/

/-- Sequential composition: only a value is passed on. -/
def bind (m : Run σ ε α) (f : α → Run σ ε β) : Run σ ε β := ⟨fun s =>
  match m.run s with
  | (.ok a, s') => (f a).run s'
  | (.err e, s') => (.err e, s')
  | (.panic, s') => (.panic, s')
  | (.hang, s') => (.hang, s')⟩

instance : Monad (Run σ ε) where
  pure a := ⟨fun s => (.ok a, s)⟩
  bind := bind

/-- End with an error. -/
def throw (e : ε) : Run σ ε α := ⟨fun s => (.err e, s)⟩

/-- Abort. -/
def panic : Run σ ε α := ⟨fun s => (.panic, s)⟩

/-- Give up on a loop that reached its bound. -/
def hang : Run σ ε α := ⟨fun s => (.hang, s)⟩

/-- The current state. -/
def get : Run σ ε σ := ⟨fun s => (.ok s, s)⟩

/-- Replace the state. -/
def set (s : σ) : Run σ ε Unit := ⟨fun _ => (.ok (), s)⟩

/-- Change the state. -/
def modify (f : σ → σ) : Run σ ε Unit := ⟨fun s => (.ok (), f s)⟩

/-- Take an already computed result into the program. -/
def ofExcept : Except ε α → Run σ ε α
  | .ok a => pure a
  | .error e => throw e

/-- Relabel the error. -/
def mapErr (f : ε → ε') (m : Run σ ε α) : Run σ ε' α := ⟨fun s =>
  ((m.run s).1.mapErr f, (m.run s).2)⟩

/-- Hand the error to the program as a value. -/
def attempt (m : Run σ ε α) : Run σ ε' (Except ε α) := ⟨fun s =>
  match m.run s with
  | (.ok a, s') => (.ok (.ok a), s')
  | (.err e, s') => (.ok (.error e), s')
  | (.panic, s') => (.panic, s')
  | (.hang, s') => (.hang, s')⟩

/-- Run on a part of a larger state. -/
def zoom {τ : Type} (get : τ → σ) (set : σ → τ → τ) (m : Run σ ε α) : Run τ ε α := ⟨fun t =>
  ((m.run (get t)).1, set (m.run (get t)).2 t)⟩

/-- Repeat `body` until it asks for the end, at most `n` times. -/
def loop (body : β → Run σ ε (Flow β γ)) : Nat → β → Run σ ε γ
  | 0, _ => hang
  | n + 1, b => do
      match ← body b with
      | .next b' => loop body n b'
      | .done c => pure c

/-- Run `f` on each element of a list, in order. -/
def forEach (f : α → Run σ ε Unit) : List α → Run σ ε Unit
  | [] => pure ()
  | a :: as => do
      f a
      forEach f as

/-! ## Bind equations -/

@[simp] theorem pure_run (a : α) (s : σ) : (pure a : Run σ ε α).run s = (.ok a, s) := rfl

@[simp] theorem throw_run (e : ε) (s : σ) : (throw e : Run σ ε α).run s = (.err e, s) := rfl

@[simp] theorem panic_run (s : σ) : (panic : Run σ ε α).run s = (.panic, s) := rfl

@[simp] theorem hang_run (s : σ) : (hang : Run σ ε α).run s = (.hang, s) := rfl

@[simp] theorem get_run (s : σ) : (get : Run σ ε σ).run s = (.ok s, s) := rfl

@[simp] theorem set_run (s' s : σ) : (set s' : Run σ ε Unit).run s = (.ok (), s') := rfl

@[simp] theorem modify_run (f : σ → σ) (s : σ) :
    (modify f : Run σ ε Unit).run s = (.ok (), f s) := rfl

/-- A sequence runs its second part behind a value of the first, and stops with anything else. -/
theorem bind_run (m : Run σ ε α) (f : α → Run σ ε β) (s : σ) :
    (m >>= f).run s = match m.run s with
      | (.ok a, s') => (f a).run s'
      | (.err e, s') => (.err e, s')
      | (.panic, s') => (.panic, s')
      | (.hang, s') => (.hang, s') := rfl

/-- A program after a step that succeeded. -/
theorem bind_of_ok {m : Run σ ε α} {f : α → Run σ ε β} {s s' : σ} {a : α}
    (h : m.run s = (.ok a, s')) : (m >>= f).run s = (f a).run s' := by
  rw [bind_run, h]

/-- A program after a step that failed. -/
theorem bind_of_err {m : Run σ ε α} {f : α → Run σ ε β} {s s' : σ} {e : ε}
    (h : m.run s = (.err e, s')) : (m >>= f).run s = (.err e, s') := by
  rw [bind_run, h]

/-- A program after a step that aborted. -/
theorem bind_of_panic {m : Run σ ε α} {f : α → Run σ ε β} {s s' : σ}
    (h : m.run s = (.panic, s')) : (m >>= f).run s = (.panic, s') := by
  rw [bind_run, h]

/-- A sequence succeeds exactly when both halves do. -/
theorem bind_ok {m : Run σ ε α} {f : α → Run σ ε β} {s s' : σ} {b : β} :
    (m >>= f).run s = (.ok b, s') ↔
      ∃ a s₁, m.run s = (.ok a, s₁) ∧ (f a).run s₁ = (.ok b, s') := by
  rw [bind_run]
  constructor
  · intro h
    rcases hm : m.run s with ⟨o, s₁⟩
    rw [hm] at h
    cases o with
    | ok a => exact ⟨a, s₁, rfl, h⟩
    | err e => simp at h
    | panic => simp at h
    | hang => simp at h
  · rintro ⟨a, s₁, hm, hf⟩
    rw [hm]
    exact hf

/-- A sequence fails when its first half does, or its second. -/
theorem bind_err {m : Run σ ε α} {f : α → Run σ ε β} {s s' : σ} {e : ε} :
    (m >>= f).run s = (.err e, s') ↔ m.run s = (.err e, s') ∨
      ∃ a s₁, m.run s = (.ok a, s₁) ∧ (f a).run s₁ = (.err e, s') := by
  rw [bind_run]
  rcases hm : m.run s with ⟨a | e₁ | _ | _, s₁⟩ <;> simp

@[simp] theorem mapErr_ok {m : Run σ ε α} {f : ε → ε'} {s s' : σ} {a : α} :
    (mapErr f m).run s = (.ok a, s') ↔ m.run s = (.ok a, s') := by
  rcases hm : m.run s with ⟨o, s₁⟩
  cases o <;> simp [mapErr, hm, Outcome.mapErr]

/-- A value passes a renaming of the errors. -/
theorem mapErr_of_ok {m : Run σ ε α} {f : ε → ε'} {s s' : σ} {a : α}
    (h : m.run s = (.ok a, s')) : (mapErr f m).run s = (.ok a, s') := mapErr_ok.mpr h

/-- The error of a run whose errors are renamed is the renamed error of the run. -/
theorem mapErr_err {m : Run σ ε α} {f : ε → ε'} {s s' : σ} {e' : ε'} :
    (mapErr f m).run s = (.err e', s') ↔ ∃ e, m.run s = (.err e, s') ∧ f e = e' := by
  rcases hm : m.run s with ⟨a | e | _ | _, s₁⟩ <;> simp [mapErr, hm, Outcome.mapErr, and_comm]

/-- An attempt hands a value on as one. -/
theorem attempt_of_ok {m : Run σ ε α} {s s' : σ} {a : α} (h : m.run s = (.ok a, s')) :
    (attempt m : Run σ ε' _).run s = (.ok (.ok a), s') := by
  simp [attempt, h]

/-- An attempt turns an error into a value. -/
theorem attempt_of_err {m : Run σ ε α} {s s' : σ} {e : ε} (h : m.run s = (.err e, s')) :
    (attempt m : Run σ ε' _).run s = (.ok (.error e), s') := by
  simp [attempt, h]

/-- A panic is not caught. -/
theorem attempt_of_panic {m : Run σ ε α} {s s' : σ} (h : m.run s = (.panic, s')) :
    (attempt m : Run σ ε' _).run s = (.panic, s') := by
  simp only [attempt, h]

theorem attempt_ok {m : Run σ ε α} {s s' : σ} {a : α} :
    (attempt m : Run σ ε' _).run s = (.ok (.ok a), s') ↔ m.run s = (.ok a, s') := by
  rcases h : m.run s with ⟨o, s₁⟩
  cases o <;> simp [attempt, h]

theorem attempt_error {m : Run σ ε α} {s s' : σ} {e : ε} :
    (attempt m : Run σ ε' _).run s = (.ok (.error e), s') ↔ m.run s = (.err e, s') := by
  rcases h : m.run s with ⟨o, s₁⟩
  cases o <;> simp [attempt, h]

@[simp] theorem ofExcept_ok {x : Except ε α} {s s' : σ} {a : α} :
    (ofExcept x : Run σ ε α).run s = (.ok a, s') ↔ x = .ok a ∧ s = s' := by
  cases x with
  | ok b => simp [ofExcept]
  | error e => simp [ofExcept]

/-- A list traversal fails where one of its steps does. -/
theorem forEach_err {f : α → Run σ ε Unit} {as : List α} {s s' : σ} {e : ε}
    (h : (forEach f as).run s = (.err e, s')) :
    ∃ a ∈ as, ∃ s₁ s₂, (f a).run s₁ = (.err e, s₂) := by
  induction as generalizing s with
  | nil => simp [forEach] at h
  | cons a as ih =>
      rw [forEach, bind_err] at h
      rcases h with h | ⟨_, s₁, -, h⟩
      · exact ⟨a, List.mem_cons_self, s, s', h⟩
      · obtain ⟨b, hb, hrun⟩ := ih h
        exact ⟨b, List.mem_cons_of_mem a hb, hrun⟩

/-- A list traversal whose steps all succeed. -/
theorem forEach_total {R : σ → σ → Prop} [Std.Refl R] [IsTrans σ R] {f : α → Run σ ε Unit}
    {as : List α} (hf : ∀ a ∈ as, ∀ s, ∃ s', (f a).run s = (.ok (), s') ∧ R s s') (s : σ) :
    ∃ s', (forEach f as).run s = (.ok (), s') ∧ R s s' := by
  induction as generalizing s with
  | nil => exact ⟨s, rfl, Std.Refl.refl s⟩
  | cons a as ih =>
      rw [List.forall_mem_cons] at hf
      obtain ⟨s₁, h₁, hR₁⟩ := hf.1 s
      obtain ⟨s', h', hR'⟩ := ih hf.2 s₁
      exact ⟨s', by rw [forEach, bind_of_ok h₁, h'], IsTrans.trans _ _ _ hR₁ hR'⟩

instance : LawfulMonad (Run σ ε) := LawfulMonad.mk' _
  (fun m => by
    change bind m (fun a => pure a) = m
    rcases m with ⟨m⟩
    simp only [bind, Run.mk.injEq]
    funext s
    rcases hm : m s with ⟨o, s₁⟩
    cases o <;> rfl)
  (fun _ _ => rfl)
  (fun m f g => by
    change bind (bind m f) g = bind m (fun a => bind (f a) g)
    simp only [bind, Run.mk.injEq]
    funext s
    rcases hm : m.run s with ⟨o, s₁⟩
    cases o <;> rfl)

/-! ## Invariants of runs that return -/

/-- If `m`, started in `s`, comes back to its caller, it does so where `I` holds. -/
def Returns (I : σ → Prop) (m : Run σ ε α) (s : σ) : Prop := (m.run s).1.returned → I (m.run s).2

section Returns

variable {I : σ → Prop} {s : σ}

theorem Returns.pure {a : α} (h : I s) : Returns I (pure a : Run σ ε α) s := fun _ => h

theorem Returns.throw {e : ε} (h : I s) : Returns I (throw e : Run σ ε α) s := fun _ => h

/-- A sequence keeps the invariant if both of its parts do. -/
theorem Returns.bind {m : Run σ ε α} {f : α → Run σ ε β} (hm : Returns I m s)
    (hf : ∀ a s₁, m.run s = (.ok a, s₁) → I s₁ → Returns I (f a) s₁) : Returns I (m >>= f) s := by
  unfold Returns at *
  rw [bind_run]
  rcases h : m.run s with ⟨a | e | _ | _, s₁⟩
  · rw [h] at hm
    exact hf a s₁ h (hm rfl)
  all_goals rwa [h] at hm

/-- A list traversal keeps what each of its steps keeps. -/
theorem Returns.forEach {f : α → Run σ ε Unit} {as : List α}
    (hf : ∀ a ∈ as, ∀ s, I s → Returns I (f a) s) (h : I s) : Returns I (forEach f as) s := by
  induction as generalizing s with
  | nil => exact .pure h
  | cons a as ih =>
      refine .bind (hf a List.mem_cons_self s h) fun _ s₁ _ h₁ => ih (fun b hb => ?_) h₁
      exact hf b (List.mem_cons_of_mem a hb)

end Returns

/-! ## Runs that end alike -/

/-- Two runs end with the same value and states related by `Q`, or in the same
other way and states related by `E`. -/
inductive Alike (Q : α → σ → τ → Prop) (E : σ → τ → Prop) :
    Outcome ε α × σ → Outcome ε α × τ → Prop where
  | ok {a s t} (h : Q a s t) : Alike Q E (.ok a, s) (.ok a, t)
  | err {e s t} (h : E s t) : Alike Q E (.err e, s) (.err e, t)
  | panic {s t} (h : E s t) : Alike Q E (.panic, s) (.panic, t)
  | hang {s t} (h : E s t) : Alike Q E (.hang, s) (.hang, t)

section Alike

variable {Q : α → σ → τ → Prop} {Q' : β → σ → τ → Prop} {E : σ → τ → Prop} {s : σ} {t : τ}

/-- A run ends like itself. -/
theorem Alike.refl {R : σ → σ → Prop} [Std.Refl R] (p : Outcome ε α × σ) :
    Alike (fun _ => R) R p p := by
  obtain ⟨a | e | _ | _, s⟩ := p
  · exact .ok (Std.Refl.refl s)
  · exact .err (Std.Refl.refl s)
  · exact .panic (Std.Refl.refl s)
  · exact .hang (Std.Refl.refl s)

/-- Runs that end alike have one outcome. -/
theorem Alike.outcome {p : Outcome ε α × σ} {q : Outcome ε α × τ} (h : Alike Q E p q) :
    p.1 = q.1 := by
  cases h <;> rfl

/-- The states they end in are related. -/
theorem Alike.related {R : σ → τ → Prop} {p : Outcome ε α × σ} {q : Outcome ε α × τ}
    (h : Alike (fun _ => R) R p q) : R p.2 q.2 := by
  cases h <;> assumption

/-- Behind a value the stronger relation holds. -/
theorem Alike.of_ok {a : α} {p : Outcome ε α × σ} {q : Outcome ε α × τ} (h : Alike Q E p q)
    (hok : p.1 = .ok a) : Q a p.2 q.2 := by
  cases h with
  | ok h =>
      rw [Outcome.ok.injEq] at hok
      exact hok ▸ h
  | _ => simp at hok

/-- What is known of the values of one of the runs. -/
theorem Alike.and_left {P : α → σ → Prop} {p : Outcome ε α × σ} {q : Outcome ε α × τ}
    (h : Alike Q E p q) (hP : ∀ a, p.1 = .ok a → P a p.2) :
    Alike (fun a s t => Q a s t ∧ P a s) E p q := by
  cases h with
  | ok h => exact .ok ⟨h, hP _ rfl⟩
  | err h => exact .err h
  | panic h => exact .panic h
  | hang h => exact .hang h

/-- Both relations may be weakened. -/
theorem Alike.mono {R : α → σ → τ → Prop} {F : σ → τ → Prop} {p : Outcome ε α × σ}
    {q : Outcome ε α × τ} (h : Alike Q E p q) (hQ : ∀ a s t, Q a s t → R a s t)
    (hE : ∀ s t, E s t → F s t) : Alike R F p q := by
  cases h with
  | ok h => exact .ok (hQ _ _ _ h)
  | err h => exact .err (hE _ _ h)
  | panic h => exact .panic (hE _ _ h)
  | hang h => exact .hang (hE _ _ h)

/-- Ending alike composes if the relation of the states does. -/
theorem Alike.trans {R : σ → σ → Prop} [IsTrans σ R] {p q r : Outcome ε α × σ}
    (h : Alike (fun _ => R) R p q) (h' : Alike (fun _ => R) R q r) : Alike (fun _ => R) R p r := by
  have hrelated := IsTrans.trans _ _ _ h.related h'.related
  cases h <;> cases h'
  · exact .ok hrelated
  · exact .err hrelated
  · exact .panic hrelated
  · exact .hang hrelated

/-- Two sequences end alike if their parts do. -/
theorem Alike.bind {m : Run σ ε α} {m' : Run τ ε α} {f : α → Run σ ε β} {f' : α → Run τ ε β}
    (hm : Alike Q E (m.run s) (m'.run t))
    (hf : ∀ a s₁ t₁, Q a s₁ t₁ → Alike Q' E ((f a).run s₁) ((f' a).run t₁)) :
    Alike Q' E ((m >>= f).run s) ((m' >>= f').run t) := by
  rw [bind_run, bind_run]
  generalize m.run s = p at hm
  generalize m'.run t = q at hm
  cases hm with
  | ok h => exact hf _ _ _ h
  | err h => exact .err h
  | panic h => exact .panic h
  | hang h => exact .hang h

/-- The same renaming of the errors on both sides changes nothing. -/
theorem Alike.mapErr {m : Run σ ε α} {m' : Run τ ε α} (f : ε → ε')
    (hm : Alike Q E (m.run s) (m'.run t)) :
    Alike Q E ((mapErr f m).run s) ((mapErr f m').run t) := by
  simp only [Run.mapErr]
  generalize m.run s = p at hm
  generalize m'.run t = q at hm
  cases hm with
  | ok h => exact .ok h
  | err h => exact .err h
  | panic h => exact .panic h
  | hang h => exact .hang h

/-- An error handed to the program is the same value in both. -/
theorem Alike.attempt {m : Run σ ε α} {m' : Run τ ε α} (hm : Alike Q E (m.run s) (m'.run t)) :
    Alike (fun r s t => (∀ a, r = .ok a → Q a s t) ∧ ∀ e, r = .error e → E s t) E
      ((attempt m : Run σ ε' _).run s) ((attempt m' : Run τ ε' _).run t) := by
  simp only [Run.attempt]
  generalize m.run s = p at hm
  generalize m'.run t = q at hm
  cases hm with
  | ok h => exact .ok ⟨fun a ha => Except.ok.inj ha ▸ h, by simp⟩
  | err h => exact .ok ⟨by simp, fun _ _ => h⟩
  | panic h => exact .panic h
  | hang h => exact .hang h

/-- Two loops end alike if their passes do. -/
theorem Alike.loop {body : β → Run σ ε (Flow β γ)} {body' : β → Run τ ε (Flow β γ)}
    {R : σ → τ → Prop}
    (hbody : ∀ b s t, R s t → Alike (fun _ => R) R ((body b).run s) ((body' b).run t)) (n : Nat)
    (b : β) (h : R s t) : Alike (fun _ => R) R ((loop body n b).run s) ((loop body' n b).run t) := by
  induction n generalizing b s t with
  | zero => exact .hang h
  | succ n ih =>
      refine .bind (hbody b s t h) fun f s₁ t₁ h₁ => ?_
      cases f with
      | next b' => exact ih b' h₁
      | done c => exact .ok h₁

/-- Two sweeps over one list end alike if their runs do. -/
theorem Alike.forEach {f : α → Run σ ε Unit} {f' : α → Run τ ε Unit} {R : σ → τ → Prop}
    {as : List α} (hf : ∀ a ∈ as, ∀ s t, R s t → Alike (fun _ => R) R ((f a).run s) ((f' a).run t))
    (h : R s t) : Alike (fun _ => R) R ((forEach f as).run s) ((forEach f' as).run t) := by
  induction as generalizing s t with
  | nil => exact .ok h
  | cons a as ih =>
      rw [List.forall_mem_cons] at hf
      exact .bind (hf.1 s t h) fun _ _ _ h₁ => ih hf.2 h₁

end Alike

/-! ## Loops that end -/

/-- One pass of a loop that goes on. -/
theorem loop_next {body : β → Run σ ε (Flow β γ)} {n : Nat} {b b' : β} {s s' : σ}
    (h : (body b).run s = (.ok (.next b'), s')) :
    (loop body (n + 1) b).run s = (loop body n b').run s' := by
  rw [loop, bind_of_ok h]

/-- The last pass of a loop. -/
theorem loop_done {body : β → Run σ ε (Flow β γ)} {n : Nat} {b : β} {c : γ} {s s' : σ}
    (h : (body b).run s = (.ok (.done c), s')) :
    (loop body (n + 1) b).run s = (.ok c, s') := by
  rw [loop, bind_of_ok h]
  rfl

/-- A loop that succeeds made a first pass that did. -/
theorem loop_ok {body : β → Run σ ε (Flow β γ)} {n : Nat} {b : β} {c : γ} {s s' : σ}
    (h : (loop body n b).run s = (.ok c, s')) :
    ∃ k, n = k + 1 ∧ ∃ f s₁, (body b).run s = (.ok f, s₁) ∧
      ((∃ b', f = .next b' ∧ (loop body k b').run s₁ = (.ok c, s')) ∨
        (f = .done c ∧ s₁ = s')) := by
  cases n with
  | zero => simp [loop] at h
  | succ k =>
      rw [loop, bind_ok] at h
      obtain ⟨f, s₁, hb, hf⟩ := h
      refine ⟨k, rfl, f, s₁, hb, ?_⟩
      cases f with
      | next b' => exact .inl ⟨b', rfl, hf⟩
      | done d =>
          simp only [pure_run, Prod.mk.injEq, Outcome.ok.injEq] at hf
          exact .inr ⟨by rw [hf.1], hf.2⟩

/-- **Invariant of a successful loop**: what every pass keeps holds at the
end, and the last pass establishes the result. -/
theorem loop_invariant {body : β → Run σ ε (Flow β γ)} {I : β → σ → Prop} {Q : γ → σ → Prop}
    (hnext : ∀ b s b' s', I b s → (body b).run s = (.ok (.next b'), s') → I b' s')
    (hdone : ∀ b s c s', I b s → (body b).run s = (.ok (.done c), s') → Q c s')
    {n : Nat} {b : β} {s s' : σ} {c : γ} (hI : I b s)
    (h : (loop body n b).run s = (.ok c, s')) : Q c s' := by
  induction n generalizing b s with
  | zero => simp [loop] at h
  | succ n ih =>
      obtain ⟨k, hk, f, s₁, hb, hcase⟩ := loop_ok h
      obtain rfl : n = k := by omega
      rcases hcase with ⟨b', rfl, hl⟩ | ⟨rfl, rfl⟩
      · exact ih (hnext b s b' s₁ hI hb) hl
      · exact hdone b s c s₁ hI hb

/-- **Total loop**: when every pass succeeds, keeps the invariant and lowers a
measure, the loop ends before its bound. -/
theorem loop_total {body : β → Run σ ε (Flow β γ)} {I : β → σ → Prop} {Q : γ → σ → Prop}
    (μ : β → σ → Nat)
    (hbody : ∀ b s, I b s →
      (∃ b' s', (body b).run s = (.ok (.next b'), s') ∧ I b' s' ∧ μ b' s' < μ b s) ∨
      (∃ c s', (body b).run s = (.ok (.done c), s') ∧ Q c s')) {n : Nat} {b : β} {s : σ}
    (hI : I b s) (hn : μ b s < n) : ∃ c s', (loop body n b).run s = (.ok c, s') ∧ Q c s' := by
  induction n generalizing b s with
  | zero => omega
  | succ n ih =>
      rcases hbody b s hI with ⟨b', s₁, hrun, hI', hlt⟩ | ⟨c, s₁, hrun, hQ⟩
      · rw [loop_next hrun]
        exact ih hI' (by omega)
      · exact ⟨c, s₁, loop_done hrun, hQ⟩

/-- A loop whose passes lower a measure does not depend on its bound. -/
theorem loop_bound {body : β → Run σ ε (Flow β γ)} (μ : β → σ → Nat)
    (hnext : ∀ b s b' s', (body b).run s = (.ok (.next b'), s') → μ b' s' < μ b s) {n m : Nat}
    {b : β} {s : σ} (hn : μ b s < n) (hm : μ b s < m) :
    (loop body n b).run s = (loop body m b).run s := by
  induction n generalizing m b s with
  | zero => omega
  | succ n ih =>
      obtain ⟨m, rfl⟩ : ∃ k, m = k + 1 := Nat.exists_eq_succ_of_ne_zero (by omega)
      rw [loop, loop, bind_run, bind_run]
      rcases h : (body b).run s with ⟨(b' | c) | e | _ | _, s₁⟩
      · have hlt := hnext b s b' s₁ h
        exact ih (by omega) (by omega)
      all_goals rfl

/-! ## Counting passes -/

/-- The passes a loop makes, each with what it costs inside. -/
def loopCost (cost : β → σ → Nat) (body : β → Run σ ε (Flow β γ)) : Nat → β → σ → Nat
  | 0, _, _ => 0
  | n + 1, b, s =>
    1 + cost b s +
      match (body b).run s with
      | (.ok (.next b'), s') => loopCost cost body n b' s'
      | _ => 0

/-- What is spent behind `m`, where it gives a value. -/
def costBehind (m : Run σ ε α) (cost : α → σ → Nat) (s : σ) : Nat :=
  match m.run s with
  | (.ok a, s') => cost a s'
  | _ => 0

/-- Behind a value the cost is what follows from it. -/
theorem costBehind_of_ok {m : Run σ ε α} {cost : α → σ → Nat} {s s' : σ} {a : α}
    (h : m.run s = (.ok a, s')) : costBehind m cost s = cost a s' := by
  rw [costBehind, h]

/-- Behind a failure there is no cost, so a bound behind values is one. -/
theorem costBehind_le {m : Run σ ε α} {cost : α → σ → Nat} {s : σ} {k n : Nat}
    (h : ∀ a s', m.run s = (.ok a, s') → k * cost a s' ≤ n) : k * costBehind m cost s ≤ n := by
  rw [costBehind]
  split
  · next a s' hrun => exact h a s' hrun
  · exact Nat.zero_le n

/-- What is spent on `m` and behind it. -/
theorem add_costBehind_le {m : Run σ ε α} {cost : α → σ → Nat} {s : σ} {k first n : Nat}
    (hfirst : k * first ≤ n)
    (h : ∀ a s', m.run s = (.ok a, s') → k * (first + cost a s') ≤ n) :
    k * (first + costBehind m cost s) ≤ n := by
  rw [costBehind]
  split
  · next a s' hrun => exact h a s' hrun
  · exact hfirst

section LoopCost

variable {cost : β → σ → Nat} {body : β → Run σ ε (Flow β γ)} {φ : σ → Nat} {k extra : Nat}
  (hnext : ∀ b s b' s', (body b).run s = (.ok (.next b'), s') →
    k * (1 + cost b s) + φ s' ≤ φ s)
include hnext

/-- Where every pass that goes on is paid for out of `φ`, and the last one needs
no more than `extra` on top, so are all. -/
theorem loopCost_le (hlast : ∀ b s, k * (1 + cost b s) ≤ φ s + extra) (n : Nat) (b : β) (s : σ) :
    k * loopCost cost body n b s ≤ φ s + extra := by
  induction n generalizing b s with
  | zero => simp [loopCost]
  | succ n ih =>
      rw [loopCost, Nat.mul_add]
      split
      · next b' s' hrun =>
          have hpaid := hnext b s b' s' hrun
          have hrest := ih b' s'
          omega
      · exact hlast b s

/-- The same for a loop that succeeds, with what is left of `φ`. -/
theorem loopCost_ok
    (hdone : ∀ b s c s', (body b).run s = (.ok (.done c), s') →
      k * (1 + cost b s) + φ s' ≤ φ s + extra) {n : Nat} {b : β} {s s' : σ} {c : γ}
    (h : (loop body n b).run s = (.ok c, s')) :
    k * loopCost cost body n b s + φ s' ≤ φ s + extra := by
  induction n generalizing b s with
  | zero => simp [loop] at h
  | succ n ih =>
      obtain ⟨j, hj, f, s₁, hrun, hcase⟩ := loop_ok h
      obtain rfl : n = j := by omega
      rw [loopCost, hrun, Nat.mul_add]
      rcases hcase with ⟨b', rfl, hl⟩ | ⟨rfl, rfl⟩
      · have hpaid := hnext b s b' s₁ hrun
        have hrest := ih hl
        dsimp only
        omega
      · exact hdone b s c s₁ hrun

end LoopCost

/-! ## Runs that differ by a failure -/

/-- `m` goes as `m'` does, or fails with an error that satisfies `P`. -/
def OrFails (P : ε → Prop) (m m' : Run σ ε α) : Prop :=
  ∀ s, m.run s = m'.run s ∨ ∃ e s', m.run s = (.err e, s') ∧ P e

namespace OrFails

variable {P : ε → Prop}

protected theorem refl (m : Run σ ε α) : OrFails P m m := fun _ => .inl rfl

/-- Sequences differ by a failure if their parts do. -/
theorem bind {m m' : Run σ ε α} {f f' : α → Run σ ε β} (hm : OrFails P m m')
    (hf : ∀ a, OrFails P (f a) (f' a)) : OrFails P (m >>= f) (m' >>= f') := by
  intro s
  rcases hm s with heq | ⟨e, s', hrun, he⟩
  · rw [bind_run, bind_run, ← heq]
    rcases m.run s with ⟨a | e | _ | _, s₁⟩
    · exact hf a s₁
    all_goals exact .inl rfl
  · exact .inr ⟨e, s', bind_of_err hrun, he⟩

theorem ite {p : Prop} [Decidable p] {m m' n n' : Run σ ε α} (h : OrFails P m m')
    (h' : OrFails P n n') : OrFails P (if p then m else n) (if p then m' else n') := by
  split
  · exact h
  · exact h'

/-- Loops differ by a failure if their passes do. -/
theorem loop {body body' : β → Run σ ε (Flow β γ)} (h : ∀ b, OrFails P (body b) (body' b))
    (n : Nat) (b : β) : OrFails P (loop body n b) (loop body' n b) := by
  induction n generalizing b with
  | zero => exact .refl _
  | succ n ih =>
      refine bind (h b) fun f => ?_
      cases f with
      | next b' => exact ih b'
      | done c => exact .refl _

end OrFails

/-- Two runs from one state that begin with the same step. -/
theorem orFails_behind {P : ε → Prop} {m : Run σ ε α} {f f' : α → Run σ ε β} {s : σ}
    (h : ∀ a s₁, m.run s = (.ok a, s₁) →
      (f a).run s₁ = (f' a).run s₁ ∨ ∃ e s', (f a).run s₁ = (.err e, s') ∧ P e) :
    (m >>= f).run s = (m >>= f').run s ∨ ∃ e s', (m >>= f).run s = (.err e, s') ∧ P e := by
  rw [bind_run, bind_run]
  rcases hm : m.run s with ⟨a | e | _ | _, s₁⟩
  · exact h a s₁ hm
  all_goals exact .inl rfl

/-- Where a list traversal differs by a failure, it is at one of the elements,
behind others that went through. -/
theorem forEach_orFails (f f' : α → Run σ ε Unit) {P : α → σ → ε → Prop} (as : List α)
    (h : ∀ a ∈ as, ∀ s, (f a).run s = (f' a).run s ∨ ∃ e s', (f a).run s = (.err e, s') ∧ P a s e)
    (s : σ) : (forEach f as).run s = (forEach f' as).run s ∨
      ∃ e s', (forEach f as).run s = (.err e, s') ∧ ∃ before a after s₁,
        as = before ++ a :: after ∧ (forEach f before).run s = (.ok (), s₁) ∧ P a s₁ e := by
  induction as generalizing s with
  | nil => exact .inl rfl
  | cons a as ih =>
      rw [List.forall_mem_cons] at h
      rcases h.1 s with heq | ⟨e, s', hrun, he⟩
      · rw [forEach, forEach, bind_run, bind_run, ← heq]
        rcases hrun : (f a).run s with ⟨u | e | _ | _, s₁⟩
        · rcases ih h.2 s₁ with hrest | ⟨e, s', hfail, before, b, after, s₂, hsplit, hbefore, he⟩
          · exact .inl hrest
          · refine .inr ⟨e, s', hfail, a :: before, b, after, s₂, by rw [hsplit]; rfl, ?_, he⟩
            rw [forEach, bind_of_ok hrun, hbefore]
        all_goals exact .inl rfl
      · exact .inr ⟨e, s', bind_of_err hrun, [], a, as, s, rfl, rfl, he⟩

/-! ## Errors of a run -/

/-- Every error that `m` ends with satisfies `P`. -/
def Throws (P : ε → Prop) (m : Run σ ε α) : Prop := ∀ s e s', m.run s = (.err e, s') → P e

namespace Throws

variable {P : ε → Prop}

theorem pure (a : α) : Throws P (Pure.pure a : Run σ ε α) := fun _ _ _ h => by simp at h

theorem throw {e : ε} (h : P e) : Throws P (throw e : Run σ ε α) := by
  intro s e' s' he
  simp only [throw_run, Prod.mk.injEq, Outcome.err.injEq] at he
  exact he.1 ▸ h

theorem hang : Throws P (hang : Run σ ε α) := fun _ _ _ h => by simp at h

theorem panic : Throws P (panic : Run σ ε α) := fun _ _ _ h => by simp at h

/-- A step without effects throws its own error only. -/
theorem ofExcept {x : Except ε α} (h : ∀ e, x = .error e → P e) :
    Throws P (ofExcept x : Run σ ε α) := by
  cases x with
  | ok a => exact pure a
  | error e => exact throw (h e rfl)

/-- A sequence throws what its parts throw. -/
theorem bind {m : Run σ ε α} {f : α → Run σ ε β} (hm : Throws P m) (hf : ∀ a, Throws P (f a)) :
    Throws P (m >>= f) := by
  intro s e s' h
  rcases bind_err.mp h with h | ⟨a, s₁, -, h⟩
  · exact hm s e s' h
  · exact hf a s₁ e s' h

theorem ite {p : Prop} [Decidable p] {m n : Run σ ε α} (h : Throws P m) (h' : Throws P n) :
    Throws P (if p then m else n) := by
  split
  · exact h
  · exact h'

/-- A relabelled error. -/
theorem mapErr {P : ε' → Prop} {f : ε → ε'} (h : ∀ e, P (f e)) (m : Run σ ε α) :
    Throws P (mapErr f m) := by
  intro s e' s' he
  obtain ⟨e, -, rfl⟩ := mapErr_err.mp he
  exact h e

/-- A loop throws what its passes throw. -/
theorem loop {body : β → Run σ ε (Flow β γ)} (h : ∀ b, Throws P (body b)) (n : Nat) (b : β) :
    Throws P (loop body n b) := by
  induction n generalizing b with
  | zero => exact hang
  | succ n ih =>
      refine bind (h b) fun f => ?_
      cases f with
      | next b' => exact ih b'
      | done c => exact pure c

end Throws

/-! ## Runs that get nowhere -/

/-- From `s`, `m` changes nothing and gives no value. -/
def Stops (m : Run σ ε α) (s : σ) : Prop := (m.run s).2 = s ∧ ∀ a, (m.run s).1 ≠ .ok a

section Stops

variable {s : σ}

/-- A step that changes nothing, in front of one that gets nowhere. -/
theorem Stops.bind {m : Run σ ε α} {f : α → Run σ ε β} (hm : (m.run s).2 = s)
    (hf : ∀ a, m.run s = (.ok a, s) → Stops (f a) s) : Stops (m >>= f) s := by
  unfold Stops at *
  rw [bind_run]
  rcases h : m.run s with ⟨a | e | _ | _, s₁⟩
  · obtain rfl : s₁ = s := by rwa [h] at hm
    exact hf a h
  all_goals
    rw [h] at hm
    exact ⟨hm, by simp⟩

/-- Nothing is done behind a step that gives no value. -/
theorem bind_of_not_ok {m : Run σ ε α} {f : α → Run σ ε β} (h : ∀ a, (m.run s).1 ≠ .ok a) :
    ((m >>= f).run s).2 = (m.run s).2 ∧ ∀ b, ((m >>= f).run s).1 ≠ .ok b := by
  rw [bind_run]
  rcases hm : m.run s with ⟨a | e | _ | _, s₁⟩
  · rw [hm] at h
    exact absurd rfl (h a)
  all_goals exact ⟨rfl, by simp⟩

/-- A list traversal goes no further than to a step that gets nowhere. -/
theorem forEach_stops {f : α → Run σ ε Unit} {as bs : List α} {a : α} (ha : ∀ s, Stops (f a) s)
    (s : σ) : ((forEach f (as ++ a :: bs)).run s).2 = ((forEach f as).run s).2 ∧
      ∀ u, ((forEach f (as ++ a :: bs)).run s).1 ≠ .ok u := by
  induction as generalizing s with
  | nil =>
      obtain ⟨hstate, hne⟩ := bind_of_not_ok (f := fun _ => forEach f bs) (ha s).2
      exact ⟨hstate.trans (ha s).1, hne⟩
  | cons b as ih =>
      rw [List.cons_append, forEach, forEach, bind_run, bind_run]
      rcases (f b).run s with ⟨u | e | _ | _, s₁⟩
      · exact ih s₁
      all_goals exact ⟨rfl, by simp⟩

end Stops

/-! ## Runs that come back -/

/-- Every run of `m` comes back to its caller. -/
def Ends (m : Run σ ε α) : Prop := ∀ s, (m.run s).1.returned

theorem Ends.pure (a : α) : Ends (pure a : Run σ ε α) := fun _ => rfl

theorem Ends.throw (e : ε) : Ends (throw e : Run σ ε α) := fun _ => rfl

theorem Ends.ofExcept (x : Except ε α) : Ends (ofExcept x : Run σ ε α) := by
  cases x with
  | ok a => exact .pure a
  | error e => exact .throw e

/-- An attempt comes back if what is attempted does. -/
theorem Ends.attempt {m : Run σ ε α} (h : Ends m) : Ends (attempt m : Run σ ε' (Except ε α)) := by
  intro s
  have hs := h s
  rcases hm : m.run s with ⟨o, s₁⟩
  rw [hm] at hs
  cases o <;> simp_all [Run.attempt, Outcome.returned]

/-- A sequence from one state. -/
theorem returned_bind {m : Run σ ε α} {f : α → Run σ ε β} {s : σ} (hm : (m.run s).1.returned)
    (hf : ∀ a s₁, m.run s = (.ok a, s₁) → ((f a).run s₁).1.returned) :
    ((m >>= f).run s).1.returned := by
  rw [bind_run]
  rcases h : m.run s with ⟨a | e | _ | _, s₁⟩
  · exact hf a s₁ h
  · rfl
  all_goals
    rw [h] at hm
    exact hm

/-- A sequence comes back if its parts do. -/
theorem Ends.bind {m : Run σ ε α} {f : α → Run σ ε β} (hm : Ends m) (hf : ∀ a, Ends (f a)) :
    Ends (m >>= f) := fun s => returned_bind (hm s) fun a s₁ _ => hf a s₁

theorem Ends.ite {p : Prop} [Decidable p] {m m' : Run σ ε α} (h : Ends m) (h' : Ends m') :
    Ends (if p then m else m') := by
  split
  · exact h
  · exact h'

/-- A loop comes back when its passes do and a measure falls from one to the next. -/
theorem loop_ends {body : β → Run σ ε (Flow β γ)} (μ : β → σ → Nat) (hbody : ∀ b, Ends (body b))
    (hnext : ∀ b s b' s', (body b).run s = (.ok (.next b'), s') → μ b' s' < μ b s) {n : Nat}
    {b : β} {s : σ} (hn : μ b s < n) : ((loop body n b).run s).1.returned := by
  induction n generalizing b s with
  | zero => omega
  | succ n ih =>
      have hs := hbody b s
      rw [loop, bind_run]
      rcases h : (body b).run s with ⟨(b' | c) | e | _ | _, s₁⟩
      · exact ih (Nat.lt_of_lt_of_le (hnext b s b' s₁ h) (Nat.le_of_lt_succ hn))
      · rfl
      · rfl
      all_goals
        rw [h] at hs
        exact hs

/-- Renaming errors does not keep a run from coming back. -/
theorem Ends.mapErr {m : Run σ ε α} {f : ε → ε'} (h : Ends m) : Ends (mapErr f m) := by
  intro s
  have hs := h s
  simp only [Run.mapErr]
  generalize (m.run s).1 = o at hs
  cases o <;> exact hs

/-- A sweep over a list comes back if each of its runs does. -/
theorem Ends.forEach {f : α → Run σ ε Unit} {as : List α} (hf : ∀ a ∈ as, Ends (f a)) :
    Ends (forEach f as) := by
  induction as with
  | nil => exact .pure ()
  | cons a as ih =>
      rw [List.forall_mem_cons] at hf
      exact .bind hf.1 fun _ => ih hf.2

/-! ## What runs come back with -/

/-- A run that came back, with `Q` of its value or `E` behind an error. -/
inductive EndsIn (Q : α → σ → Prop) (E : σ → Prop) : Outcome ε α × σ → Prop where
  | ok {a s} (h : Q a s) : EndsIn Q E (.ok a, s)
  | err {e s} (h : E s) : EndsIn Q E (.err e, s)

namespace EndsIn

variable {Q Q' : α → σ → Prop} {E E' : σ → Prop} {r : Outcome ε α × σ} {s : σ}

/-- A run that meets its conditions has come back. -/
theorem returned (h : EndsIn Q E r) : r.1.returned := by
  cases h <;> rfl

/-- Both conditions may be weakened. -/
theorem mono (h : EndsIn Q E r) (hQ : ∀ a s, Q a s → Q' a s) (hE : ∀ s, E s → E' s) :
    EndsIn Q' E' r := by
  cases h with
  | ok h => exact .ok (hQ _ _ h)
  | err h => exact .err (hE _ h)

/-- With a value the first condition holds. -/
theorem of_ok {a : α} (h : EndsIn Q E ((.ok a, s) : Outcome ε α × σ)) : Q a s := by
  cases h with
  | ok h => exact h

/-- A condition of the state alone is one for both ways to come back. -/
theorem of_returned (h : r.1.returned) (hE : E r.2) : EndsIn (fun _ => E) E r := by
  rcases r with ⟨a | e | _ | _, s⟩
  · exact .ok hE
  · exact .err hE
  all_goals simp [Outcome.returned] at h

/-- The condition of the first part is what the second part starts from. -/
theorem bind {Q : α → σ → Prop} {Q' : β → σ → Prop} {m : Run σ ε α} {f : α → Run σ ε β}
    (hm : EndsIn Q E (m.run s)) (hf : ∀ a s₁, Q a s₁ → EndsIn Q' E ((f a).run s₁)) :
    EndsIn Q' E ((m >>= f).run s) := by
  rw [bind_run]
  generalize m.run s = r at hm
  cases hm with
  | ok h => exact hf _ _ h
  | err h => exact .err h

/-- Errors may be renamed, for neither condition names them. -/
theorem mapErr {f : ε → ε'} {m : Run σ ε α} (h : EndsIn Q E (m.run s)) :
    EndsIn Q E ((Run.mapErr f m).run s) := by
  simp only [Run.mapErr]
  generalize m.run s = r at h ⊢
  cases h with
  | ok h => exact .ok h
  | err h => exact .err h

/-- A sequence comes back if its second part does wherever the first leads. -/
theorem bind_returned {m : Run σ ε α} {f : α → Run σ ε β} (hm : EndsIn Q E (m.run s))
    (hf : ∀ a s₁, Q a s₁ → ((f a).run s₁).1.returned) : ((m >>= f).run s).1.returned := by
  rw [bind_run]
  generalize m.run s = r at hm
  cases hm with
  | ok h => exact hf _ _ h
  | err h => rfl

/-- Passes that keep `I` and lower a measure end a loop. -/
theorem loop {body : β → Run σ ε (Flow β γ)} {I : β → σ → Prop} {Q : γ → σ → Prop}
    (μ : β → σ → Nat) (hbody : ∀ b s, I b s →
      EndsIn (fun f s' => f.Meets (fun b' => I b' s' ∧ μ b' s' < μ b s) (Q · s')) E
        ((body b).run s))
    {n : Nat} {b : β} (hI : I b s) (hn : μ b s < n) :
    EndsIn Q E ((Run.loop body n b).run s) := by
  induction n generalizing b s with
  | zero => omega
  | succ n ih =>
      refine bind (hbody b s hI) fun f s₁ h => ?_
      cases f with
      | next b' => exact ih h.1 (Nat.lt_of_lt_of_le h.2 (Nat.le_of_lt_succ hn))
      | done c => exact .ok h

end EndsIn

/-! ## Runs that come back, or panic for a reason -/

/-- The run has come back to its caller, or has panicked where `P`. -/
def ReturnsOr (P : σ → Prop) (r : Outcome ε α × σ) : Prop :=
  r.1.returned ∨ r.1 = .panic ∧ P r.2

section ReturnsOr

variable {P : σ → Prop}

/-- What always comes back does so without the reason. -/
theorem ReturnsOr.of_ends {m : Run σ ε α} (h : Ends m) (s : σ) : ReturnsOr P (m.run s) := .inl (h s)

/-- Where a run panicked, the reason holds. -/
theorem ReturnsOr.of_panic {s : σ} (h : ReturnsOr P ((.panic, s) : Outcome ε α × σ)) : P s :=
  (h.resolve_left Bool.false_ne_true).2

/-- Such a run does not hang. -/
theorem ReturnsOr.not_hang {s : σ} (h : ReturnsOr P ((.hang, s) : Outcome ε α × σ)) : False := by
  rcases h with h | ⟨h, -⟩ <;> cases h

/-- A sequence panics for the reason only if both parts do. -/
theorem ReturnsOr.bind {m : Run σ ε α} {f : α → Run σ ε β} {s : σ} (hm : ReturnsOr P (m.run s))
    (hf : ∀ a s₁, m.run s = (.ok a, s₁) → ReturnsOr P ((f a).run s₁)) :
    ReturnsOr P ((m >>= f).run s) := by
  rw [bind_run]
  rcases h : m.run s with ⟨a | e | _ | _, s₁⟩
  · exact hf a s₁ h
  · exact .inl rfl
  · rw [h] at hm
    exact .inr ⟨rfl, hm.of_panic⟩
  · rw [h] at hm
    exact hm.not_hang.elim

/-- Renaming the errors adds no panic. -/
theorem ReturnsOr.mapErr {m : Run σ ε α} {f : ε → ε'} {s : σ} (h : ReturnsOr P (m.run s)) :
    ReturnsOr P ((mapErr f m).run s) := by
  simp only [Run.mapErr]
  rcases hm : m.run s with ⟨a | e | _ | _, s₁⟩
  · exact .inl rfl
  · exact .inl rfl
  · rw [hm] at h
    exact .inr ⟨rfl, h.of_panic⟩
  · rw [hm] at h
    exact h.not_hang.elim

/-- A loop does what its passes do, when a measure falls from one to the next. -/
theorem ReturnsOr.loop {body : β → Run σ ε (Flow β γ)} {I : β → σ → Prop} (μ : β → σ → Nat)
    (hbody : ∀ b s, I b s → ReturnsOr P ((body b).run s))
    (hnext : ∀ b s b' s', I b s → (body b).run s = (.ok (.next b'), s') →
      I b' s' ∧ μ b' s' < μ b s) {n : Nat} {b : β} {s : σ} (hI : I b s) (hn : μ b s < n) :
    ReturnsOr P ((loop body n b).run s) := by
  induction n generalizing b s with
  | zero => omega
  | succ n ih =>
      refine .bind (hbody b s hI) fun f s₁ h => ?_
      cases f with
      | next b' =>
          obtain ⟨hI', hlt⟩ := hnext b s b' s₁ hI h
          exact ih hI' (by omega)
      | done c => exact .inl rfl

/-- An attempt does not catch a panic, and adds none. -/
theorem ReturnsOr.attempt {m : Run σ ε α} {s : σ} (h : ReturnsOr P (m.run s)) :
    ReturnsOr P ((attempt m : Run σ ε' (Except ε α)).run s) := by
  simp only [Run.attempt]
  rcases hm : m.run s with ⟨a | e | _ | _, s₁⟩
  · exact .inl rfl
  · exact .inl rfl
  · rw [hm] at h
    exact .inr ⟨rfl, h.of_panic⟩
  · rw [hm] at h
    exact h.not_hang.elim

/-- From every state a run comes back, or panics where `P`. -/
def EndsOr (P : σ → Prop) (m : Run σ ε α) : Prop := ∀ s, ReturnsOr P (m.run s)

/-- What comes back from every state may be said to panic for any reason. -/
theorem EndsOr.of_ends {m : Run σ ε α} (h : Ends m) : EndsOr P m := fun s => .of_ends h s

/-- From every state, a sequence panics for the reason only if both parts do. -/
theorem EndsOr.bind {m : Run σ ε α} {f : α → Run σ ε β} (hm : EndsOr P m)
    (hf : ∀ a, EndsOr P (f a)) : EndsOr P (m >>= f) :=
  fun s => (hm s).bind fun a s₁ _ => hf a s₁

/-- A test panics for the reason only if both of its branches do. -/
theorem EndsOr.ite {p : Prop} [Decidable p] {m m' : Run σ ε α} (h : EndsOr P m)
    (h' : EndsOr P m') : EndsOr P (if p then m else m') := by
  split
  · exact h
  · exact h'

end ReturnsOr

/-! ## Heads of passes -/

/-- From the head of a pass to the head of the next one. -/
def NextPass (body : β → Run σ ε (Flow β γ)) (x y : β × σ) : Prop :=
  (body x.1).run x.2 = (.ok (.next y.1), y.2)

/-- What every pass keeps holds at the head of every pass. -/
theorem nextPass_invariant {body : β → Run σ ε (Flow β γ)} {I : β → σ → Prop}
    (hnext : ∀ b s b' s', I b s → (body b).run s = (.ok (.next b'), s') → I b' s') {x y : β × σ}
    (h : Relation.ReflTransGen (NextPass body) x y) (hI : I x.1 x.2) : I y.1 y.2 := by
  induction h with
  | refl => exact hI
  | tail _ hstep ih => exact hnext _ _ _ _ ih hstep

/-! ## Relations along successful runs -/

/-- Every successful run of `m` relates the state before it to the one after. -/
def Moves (R : σ → σ → Prop) (m : Run σ ε α) : Prop :=
  ∀ s a s', m.run s = (.ok a, s') → R s s'

section Moves

variable {R : σ → σ → Prop}

theorem Moves.pure [Std.Refl R] (a : α) : Moves R (pure a : Run σ ε α) := by
  intro s b s' h
  simp only [pure_run, Prod.mk.injEq] at h
  rw [← h.2]
  exact Std.Refl.refl s

/-- A run that never succeeds moves the state in any way. -/
theorem Moves.throw (e : ε) : Moves R (throw e : Run σ ε α) := by
  intro s a s' h
  simp at h

/-- Successful parts move the state one behind the other. -/
theorem Moves.bind [IsTrans σ R] {m : Run σ ε α} {f : α → Run σ ε β} (hm : Moves R m)
    (hf : ∀ a, Moves R (f a)) : Moves R (m >>= f) := by
  intro s b s' h
  obtain ⟨a, s₁, h₁, h₂⟩ := bind_ok.mp h
  exact IsTrans.trans _ _ _ (hm s a s₁ h₁) (hf a s₁ b s' h₂)

theorem Moves.ite {p : Prop} [Decidable p] {m m' : Run σ ε α} (h : Moves R m)
    (h' : Moves R m') : Moves R (if p then m else m') := by
  split
  · exact h
  · exact h'

/-- A loop moves the state as its passes do. -/
theorem Moves.loop [IsTrans σ R] {body : β → Run σ ε (Flow β γ)}
    (hbody : ∀ b, Moves R (body b)) (n : Nat) (b : β) : Moves R (loop body n b) := by
  intro s c s' h
  induction n generalizing b s with
  | zero => simp [Run.loop] at h
  | succ n ih =>
      obtain ⟨k, hk, f, s₁, hb, hcase⟩ := loop_ok h
      obtain rfl : n = k := by omega
      have h₁ := hbody b s f s₁ hb
      rcases hcase with ⟨b', rfl, hl⟩ | ⟨rfl, rfl⟩
      · exact IsTrans.trans _ _ _ h₁ (ih b' s₁ hl)
      · exact h₁

end Moves

/-! ## Relations along all runs -/

/-- Every run of `m`, however it ends, relates the state before it to the one
after. -/
def Steps (R : σ → σ → Prop) (m : Run σ ε α) : Prop := ∀ s, R s (m.run s).2

section Steps

variable {R : σ → σ → Prop}

/-- The relation holds between the states of a run that is written out. -/
theorem Steps.of_run {m : Run σ ε α} (h : Steps R m) {s s' : σ} {o : Outcome ε α}
    (hrun : m.run s = (o, s')) : R s s' := by
  have hs := h s
  rwa [hrun] at hs

theorem Steps.pure [Std.Refl R] (a : α) : Steps R (pure a : Run σ ε α) := fun s => Std.Refl.refl s

/-- An error leaves the state. -/
theorem Steps.throw [Std.Refl R] (e : ε) : Steps R (throw e : Run σ ε α) :=
  fun s => Std.Refl.refl s

theorem Steps.hang [Std.Refl R] : Steps R (hang : Run σ ε α) := fun s => Std.Refl.refl s

theorem Steps.panic [Std.Refl R] : Steps R (panic : Run σ ε α) := fun s => Std.Refl.refl s

theorem Steps.ofExcept [Std.Refl R] (x : Except ε α) : Steps R (ofExcept x : Run σ ε α) := by
  cases x with
  | ok a => exact .pure a
  | error e => exact .throw e

/-- A sequence from one state. -/
theorem step_bind [IsTrans σ R] {m : Run σ ε α} {f : α → Run σ ε β} {s : σ}
    (hm : R s (m.run s).2) (hf : ∀ a s₁, m.run s = (.ok a, s₁) → R s₁ ((f a).run s₁).2) :
    R s ((m >>= f).run s).2 := by
  rw [bind_run]
  rcases h : m.run s with ⟨a | e | _ | _, s₁⟩
  · rw [h] at hm
    exact IsTrans.trans _ _ _ hm (hf a s₁ h)
  all_goals rwa [h] at hm

/-- Two parts step one behind the other, whatever they end with. -/
theorem Steps.bind [IsTrans σ R] {m : Run σ ε α} {f : α → Run σ ε β} (hm : Steps R m)
    (hf : ∀ a, Steps R (f a)) : Steps R (m >>= f) :=
  fun s => step_bind (hm s) fun a s₁ _ => hf a s₁

theorem Steps.ite {p : Prop} [Decidable p] {m m' : Run σ ε α} (h : Steps R m)
    (h' : Steps R m') : Steps R (if p then m else m') := by
  split
  · exact h
  · exact h'

theorem Steps.mapErr {m : Run σ ε α} {f : ε → ε'} (h : Steps R m) : Steps R (mapErr f m) := h

/-- An attempt steps like what is attempted. -/
theorem Steps.attempt {m : Run σ ε α} (h : Steps R m) :
    Steps R (attempt m : Run σ ε' (Except ε α)) := by
  intro s
  have h₁ := h s
  rcases hm : m.run s with ⟨o, s₁⟩
  rw [hm] at h₁
  cases o <;> simpa [Run.attempt, hm] using h₁

/-- A loop steps as its passes do. -/
theorem Steps.loop [Std.Refl R] [IsTrans σ R] {body : β → Run σ ε (Flow β γ)}
    (hbody : ∀ b, Steps R (body b)) (n : Nat) (b : β) : Steps R (loop body n b) := by
  induction n generalizing b with
  | zero => exact .hang
  | succ n ih =>
      refine .bind (hbody b) fun f => ?_
      cases f with
      | next b' => exact ih b'
      | done c => exact .pure c

/-- A sweep over a list steps as its runs do. -/
theorem Steps.forEach [Std.Refl R] [IsTrans σ R] {f : α → Run σ ε Unit} {as : List α}
    (hf : ∀ a ∈ as, Steps R (f a)) : Steps R (forEach f as) := by
  induction as with
  | nil => exact .pure ()
  | cons a as ih =>
      refine .bind (hf a List.mem_cons_self) fun _ => ih fun b hb => ?_
      exact hf b (List.mem_cons_of_mem a hb)

end Steps

end Run

end Prog
