import Unegg.Bytes
import Unegg.Crates
import Unegg.Ctr

/-!
# Unegg.AesCtr

AES in counter mode (`aes_ctr.rs`): WinZip AE-2, a counter that starts at one
and is incremented as a little-endian number.
-/

namespace Unegg

open Bytes

inductive AesCipher where
  | aes128 (key : List UInt8)
  | aes256 (key : List UInt8)
  deriving Repr, DecidableEq

structure AesCtrDecryptor where
  cipher : AesCipher
  counter : Block
  keystream : Block
  ksOffset : Nat
  authKey : List UInt8
  deriving Repr, DecidableEq

/-- The little-endian increment of the counter. -/
def ctr128IncLe (counter : Block) : Block :=
  ⟨(incLE counter.toList).toArray, by simp⟩

namespace AesCtrDecryptor

variable (crates : Crates)

def new (mode : UInt8) (password : String) (salt storedVerifier : List UInt8) :
    Except EggError AesCtrDecryptor :=
  let build (keySize : Nat) (cipher : List UInt8 → AesCipher) : Except EggError AesCtrDecryptor :=
    let derived := crates.pbkdf2 (utf8Bytes password) salt 1000 (keySize * 2 + 2)
    let encKey := derived.take keySize
    let authKey := (derived.drop keySize).take keySize
    let verifier := derived.drop (keySize * 2)
    if verifier ≠ storedVerifier then .error .invalidPassword
    else .ok {
      cipher := cipher encKey
      counter := (Vector.replicate 16 0).set 0 1
      keystream := Vector.replicate 16 0
      ksOffset := 16
      authKey }
  if mode = 1 then build 16 .aes128
  else if mode = 3 then build 32 .aes256
  else .error (.unsupportedEncryption mode)

def encryptBlock : AesCipher → Block → Block
  | .aes128 key => crates.aes128 key
  | .aes256 key => crates.aes256 key

def nextKeystreamBlock (d : AesCtrDecryptor) : AesCtrDecryptor :=
  { d with
    keystream := encryptBlock crates d.cipher d.counter
    counter := ctr128IncLe d.counter
    ksOffset := 0 }

/-- One byte of `decrypt`. -/
def decryptStep (d : AesCtrDecryptor) (b : UInt8) : UInt8 × AesCtrDecryptor :=
  let d := if 16 ≤ d.ksOffset then nextKeystreamBlock crates d else d
  (b ^^^ d.keystream.toList.getD d.ksOffset 0, { d with ksOffset := d.ksOffset + 1 })

def decrypt (data : List UInt8) (d : AesCtrDecryptor) : List UInt8 × AesCtrDecryptor :=
  Mealy.run (decryptStep crates) data d

/-! ## the stream -/

/-- A decryptor before its first byte. -/
def fresh (cipher : AesCipher) (authKey : List UInt8) : AesCtrDecryptor where
  cipher
  counter := (Vector.replicate 16 0).set 0 1
  keystream := Vector.replicate 16 0
  ksOffset := 16
  authKey

variable {crates}

/-- The decryptor with one more block of keystream made and used up. -/
def usedBlock (crates : Crates) (d : AesCtrDecryptor) : AesCtrDecryptor :=
  { nextKeystreamBlock crates d with ksOffset := 16 }

/-- What is left of a block is used byte by byte. -/
theorem decrypt_within {data : List UInt8} {d : AesCtrDecryptor}
    (h : d.ksOffset + data.length ≤ 16) :
    (decrypt crates data d).2 = { d with ksOffset := d.ksOffset + data.length } := by
  induction data generalizing d with
  | nil => rfl
  | cons b data ih =>
      rw [List.length_cons] at h ⊢
      have hstep : (decryptStep crates d b).2 = { d with ksOffset := d.ksOffset + 1 } := by
        rw [decryptStep, if_neg (by omega)]
      have hrest : (decrypt crates (b :: data) d).2 =
          (decrypt crates data (decryptStep crates d b).2).2 := rfl
      rw [hrest, hstep, ih (by dsimp only; omega)]
      dsimp only
      rw [Nat.add_right_comm, Nat.add_assoc]

/-- Sixteen bytes use up a block. -/
theorem decrypt_block {data : List UInt8} {d : AesCtrDecryptor} (hlen : data.length = 16)
    (hused : d.ksOffset = 16) : (decrypt crates data d).2 = usedBlock crates d := by
  cases data with
  | nil => simp at hlen
  | cons b data =>
      have hlen : data.length = 15 := Nat.succ.inj hlen
      have hstep : (decryptStep crates d b).2 = { nextKeystreamBlock crates d with ksOffset := 1 } := by
        rw [decryptStep, if_pos hused.ge]
        rfl
      have hrest : (decrypt crates (b :: data) d).2 =
          (decrypt crates data (decryptStep crates d b).2).2 := rfl
      rw [hrest, hstep, decrypt_within (by dsimp only; omega), hlen]
      rfl

/-- Whole blocks of bytes use up as many blocks. -/
theorem decrypt_blocks {data : List UInt8} {d : AesCtrDecryptor} (k : Nat)
    (hlen : data.length = 16 * k) (hused : d.ksOffset = 16) :
    (decrypt crates data d).2 = (usedBlock crates)^[k] d := by
  induction k generalizing data d with
  | zero =>
      obtain rfl := List.length_eq_zero_iff.mp hlen
      rfl
  | succ k ih =>
      have hcut : (decrypt crates (data.take 16 ++ data.drop 16) d).2 =
          (decrypt crates (data.drop 16) (decrypt crates (data.take 16) d).2).2 := by
        rw [decrypt, Mealy.run_append]
        rfl
      rw [List.take_append_drop] at hcut
      rw [hcut, decrypt_block (by rw [List.length_take]; omega) hused,
        ih (by rw [List.length_drop]; omega) rfl, Function.iterate_succ_apply]

/-- Counter `k`: the little-endian number `1 + k`. -/
def counterBlock (k : Nat) : Block := ⟨(toLE 16 ((1 + k) % 2 ^ 128)).toArray, by simp⟩

theorem ctr128IncLe_iterate (k : Nat) :
    ctr128IncLe^[k] ((Vector.replicate 16 0).set 0 1) = counterBlock k := by
  induction k with
  | zero => decide
  | succ k ih =>
      have h : incLE (toLE 16 ((1 + k) % 256 ^ 16)) = toLE 16 ((1 + (k + 1)) % 256 ^ 16) := by
        rw [toLE_mod, toLE_mod, incLE_toLE, Nat.add_assoc]
      rw [Function.iterate_succ_apply', ih]
      simp only [ctr128IncLe, counterBlock]
      exact Vector.toArray_inj.mp (congrArg List.toArray h)

/-- Decrypting is counter mode over the block cipher. -/
theorem decrypt_fresh (cipher : AesCipher) (authKey data : List UInt8) :
    (decrypt crates data (fresh cipher authKey)).1 =
      (Mealy.run (Ctr.step (encryptBlock crates cipher) ctr128IncLe) data
        ⟨(Vector.replicate 16 0).set 0 1, Vector.replicate 16 0, 16⟩).1 := by
  have hstep : ∀ (s : Ctr.State 16) b,
      decryptStep crates ⟨cipher, s.counter, s.keystream, s.offset, authKey⟩ b =
        ((Ctr.step (encryptBlock crates cipher) ctr128IncLe s b).1,
          let s' := (Ctr.step (encryptBlock crates cipher) ctr128IncLe s b).2
          ⟨cipher, s'.counter, s'.keystream, s'.offset, authKey⟩) := by
    intro s b
    by_cases h : 16 ≤ s.offset <;> simp [decryptStep, Ctr.step, Ctr.refill, nextKeystreamBlock, h]
  exact congrArg Prod.fst (Mealy.run_map hstep data ⟨_, _, _⟩)

end AesCtrDecryptor

end Unegg
