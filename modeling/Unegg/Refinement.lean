import Mathlib

/-!
# Refinement

Forward simulation between a machine that computes and a specification that
may allow several answers.

The machine takes an input to an answer and a new state (`step`); the
specification says which answers an input may get in an abstract state and
which abstract states may follow (`spec`).  `trace_of_simulation` turns a
one-step argument into one about every list of inputs.  Inputs may be
restricted by what the machine's state permits (`Permitted`).
-/

namespace Refinement

variable {σ τ ι ο : Type}

/-- The answers to a list of inputs. -/
def answers (step : ι → σ → ο × σ) : List ι → σ → List ο
  | [], _ => []
  | i :: is, s => (step i s).1 :: answers step is (step i s).2

/-- Every input is permitted in the state it comes in. -/
def Permitted (ok : σ → ι → Prop) (step : ι → σ → ο × σ) : List ι → σ → Prop
  | [], _ => True
  | i :: is, s => ok s i ∧ Permitted ok step is (step i s).2

instance Permitted.decide {ok : σ → ι → Prop} [∀ s i, Decidable (ok s i)]
    {step : ι → σ → ο × σ} : ∀ is s, Decidable (Permitted ok step is s)
  | [], _ => isTrue trivial
  | i :: is, s => @instDecidableAnd _ _ _ (Permitted.decide is (step i s).2)

/-- The specification allows these answers to these inputs. -/
inductive Trace (spec : τ → ι → ο → τ → Prop) : τ → List ι → List ο → Prop
  | nil (t : τ) : Trace spec t [] []
  | cons {t t' : τ} {i : ι} {o : ο} {is : List ι} {os : List ο} (head : spec t i o t')
      (tail : Trace spec t' is os) : Trace spec t (i :: is) (o :: os)

/-- **Simulation lifts to runs**: when every permitted step of related states
is allowed and leads to related states, every permitted run is allowed. -/
theorem trace_of_simulation {step : ι → σ → ο × σ} {spec : τ → ι → ο → τ → Prop}
    {ok : σ → ι → Prop} {R : σ → τ → Prop}
    (hstep : ∀ s t i, R s t → ok s i → ∃ t', spec t i (step i s).1 t' ∧ R (step i s).2 t')
    {is : List ι} {s : σ} {t : τ} (hR : R s t) (hok : Permitted ok step is s) :
    Trace spec t is (answers step is s) := by
  induction is generalizing s t with
  | nil => exact .nil t
  | cons i is ih =>
      obtain ⟨hi, his⟩ := hok
      obtain ⟨t', hspec, hR'⟩ := hstep s t i hR hi
      exact .cons hspec (ih hR' his)

end Refinement
