import Unegg.Mealy

/-!
# Ctr

Counter mode over a block function, byte by byte: a keystream block is made
when the last one has been used up, and the counter is then incremented.

`Ctr.step` is the machine of one byte.  Its output is told by the position of
the byte alone (`getElem?_run`), so it does not depend on how a stream is cut
into calls, and running it twice gives the stream back (`run_run`).
-/

namespace Ctr

open Mealy

/-- The state between two bytes: the next counter, the last keystream block,
and how much of it has been used. -/
structure State (n : Nat) where
  counter : Vector UInt8 n
  keystream : Vector UInt8 n
  offset : Nat

variable {n : Nat} (E inc : Vector UInt8 n → Vector UInt8 n)

/-- The next keystream block, when the last one is used up. -/
def refill (s : State n) : State n :=
  if n ≤ s.offset then ⟨inc s.counter, E s.counter, 0⟩ else s

def step (s : State n) (b : UInt8) : UInt8 × State n :=
  let s := refill E inc s
  (b ^^^ s.keystream.toList.getD s.offset 0, { s with offset := s.offset + 1 })

/-- Byte `i` of the keystream that starts at a counter. -/
def keystreamByte (counter : Vector UInt8 n) (i : Nat) : UInt8 :=
  (E (inc^[i / n] counter)).toList.getD (i % n) 0

/-- The state after `i` bytes from a counter: `q` blocks have been made, and of
the last one `s.offset` bytes have been used. -/
def At (counter : Vector UInt8 n) (i : Nat) (s : State n) : Prop :=
  ∃ q, i + n = q * n + s.offset ∧ s.offset ≤ n ∧ s.counter = inc^[q] counter ∧
    ∀ p, q = p + 1 → s.keystream = E (inc^[p] counter)

variable {E inc} {counter : Vector UInt8 n} {i : Nat} {s : State n}

/-- A state whose block is used up is the start of a stream. -/
theorem at_start (keystream : Vector UInt8 n) : At E inc counter 0 ⟨counter, keystream, n⟩ :=
  ⟨0, by simp, le_rfl, rfl, by simp⟩

/-- Before a byte is changed, there is a block that covers its position. -/
theorem At.refill (hn : 0 < n) (h : At E inc counter i s) :
    (refill E inc s).offset = i % n ∧ (Ctr.refill E inc s).counter = inc^[i / n + 1] counter ∧
      (Ctr.refill E inc s).keystream = E (inc^[i / n] counter) := by
  obtain ⟨q, hi, hle, hcounter, hkeystream⟩ := h
  rw [Ctr.refill]
  split
  · next hused =>
      -- the block before is used up: `i` is the first position of block `q`
      have hiq : i = q * n := by omega
      rw [hiq, Nat.mul_div_cancel _ hn, Nat.mul_mod_left, Function.iterate_succ_apply', hcounter]
      exact ⟨rfl, rfl, rfl⟩
  · next hleft =>
      obtain ⟨p, rfl⟩ : ∃ p, q = p + 1 := ⟨q - 1, by
        cases q with
        | zero => omega
        | succ q => rfl⟩
      have hip : i = s.offset + n * p := by
        rw [Nat.add_mul, Nat.one_mul, Nat.mul_comm p n] at hi
        omega
      have hlt : s.offset < n := by omega
      rw [hip, Nat.add_mul_div_left _ _ hn, Nat.add_mul_mod_self_left, Nat.div_eq_of_lt hlt,
        Nat.mod_eq_of_lt hlt, Nat.zero_add]
      exact ⟨rfl, hcounter, hkeystream p rfl⟩

/-- **One byte** is changed by the byte of the keystream at its position. -/
theorem At.step (hn : 0 < n) (h : At E inc counter i s) (b : UInt8) :
    (Ctr.step E inc s b).1 = b ^^^ keystreamByte E inc counter i ∧
      At E inc counter (i + 1) (Ctr.step E inc s b).2 := by
  obtain ⟨hoffset, hcounter, hkeystream⟩ := h.refill hn
  simp only [Ctr.step, hoffset, hcounter, hkeystream]
  refine ⟨rfl, i / n + 1, ?_, Nat.mod_lt i hn, rfl, ?_⟩
  · have hdiv := Nat.div_add_mod' i n
    rw [Nat.add_mul, Nat.one_mul]
    change i + 1 + n = i / n * n + n + (i % n + 1)
    omega
  · rintro p hp
    rw [Nat.add_right_cancel hp]

/-- **A run** changes every byte by the keystream byte of its position. -/
theorem At.run (hn : 0 < n) (h : At E inc counter i s) (data : List UInt8) (j : Nat) :
    (run (Ctr.step E inc) data s).1[j]? =
      data[j]?.map (· ^^^ keystreamByte E inc counter (i + j)) := by
  induction data generalizing i s j with
  | nil => simp
  | cons b data ih =>
      obtain ⟨hbyte, hnext⟩ := h.step hn b
      cases j with
      | zero => simp [Mealy.run, hbyte]
      | succ j =>
          rw [Mealy.run, List.getElem?_cons_succ, ih hnext, List.getElem?_cons_succ]
          rw [Nat.add_right_comm, Nat.add_assoc]

/-- The same of a whole stream. -/
theorem getElem?_run (hn : 0 < n) (keystream : Vector UInt8 n) (data : List UInt8) (j : Nat) :
    (run (Ctr.step E inc) data ⟨counter, keystream, n⟩).1[j]? =
      data[j]?.map (· ^^^ keystreamByte E inc counter j) := by
  rw [(at_start keystream).run hn, Nat.zero_add]

/-- Encrypting twice with the same keystream does nothing. -/
theorem run_run (hn : 0 < n) (keystream : Vector UInt8 n) (data : List UInt8) :
    (run (Ctr.step E inc) (run (Ctr.step E inc) data ⟨counter, keystream, n⟩).1
      ⟨counter, keystream, n⟩).1 = data := by
  apply List.ext_getElem?
  intro j
  rw [getElem?_run hn, getElem?_run hn, Option.map_map]
  cases data[j]? with
  | none => rfl
  | some b => simp

end Ctr
