import Unegg.Bytes
import Unegg.Crates
import Unegg.Ctr

/-!
# Unegg.Lea

The LEA block cipher and its counter mode (`lea.rs`): a zero counter that is
incremented as a big-endian number.
-/

namespace Unegg

open Bytes

def delta : List UInt32 :=
  [0xc3efe9db, 0x44626b02, 0x79e27c8a, 0x78df30ec, 0x715ea49e, 0xc785da0a, 0xe04ef22a, 0xe5c40957]

def rol (x : UInt32) (n : Nat) : UInt32 := ⟨x.toBitVec.rotateLeft n⟩

def ror (x : UInt32) (n : Nat) : UInt32 := ⟨x.toBitVec.rotateRight n⟩

/-- The six words of a round. -/
structure RoundKey where
  k0 : UInt32
  k1 : UInt32
  k2 : UInt32
  k3 : UInt32
  k4 : UInt32
  k5 : UInt32
  deriving Repr, DecidableEq

structure LeaCipher where
  roundKeys : List RoundKey
  deriving Repr, DecidableEq

namespace LeaCipher

/-- The little-endian words of a byte string. -/
def words (n : Nat) (bs : List UInt8) : List UInt32 :=
  (List.range n).map fun i => UInt32.ofNat (ofLE ((bs.drop (4 * i)).take 4))

/-- One assignment of the key schedule: word `j` takes the `k`-th rotation of
the round's constant and is rotated by `r`. -/
def stir (d : UInt32) (i : Nat) (t : List UInt32) (j k r : Nat) : List UInt32 :=
  t.modify j fun v => rol (v + rol d (i + k)) r

/-- The round keys of a schedule that changes `t` in each round and takes a
key from it. -/
def schedule (update : Nat → List UInt32 → List UInt32) (key : Nat → List UInt32 → RoundKey)
    (t : List UInt32) (rounds : Nat) : List RoundKey :=
  ((List.range rounds).foldl (fun (p : List UInt32 × List RoundKey) i =>
    let t := update i p.1
    (t, p.2 ++ [key i t])) (t, [])).2

def new128 (key : List UInt8) : LeaCipher where
  roundKeys := schedule
    (fun i t =>
      let d := delta.getD (i % 4) 0
      stir d i (stir d i (stir d i (stir d i t 0 0 1) 1 1 3) 2 2 6) 3 3 11)
    (fun _ t => ⟨t.getD 0 0, t.getD 1 0, t.getD 2 0, t.getD 1 0, t.getD 3 0, t.getD 1 0⟩)
    (words 4 key) 24

def new192 (key : List UInt8) : LeaCipher where
  roundKeys := schedule
    (fun i t =>
      let d := delta.getD (i % 6) 0
      stir d i (stir d i (stir d i (stir d i (stir d i (stir d i t 0 0 1) 1 1 3) 2 2 6) 3 3 11)
        4 4 13) 5 5 17)
    (fun _ t => ⟨t.getD 0 0, t.getD 1 0, t.getD 2 0, t.getD 3 0, t.getD 4 0, t.getD 5 0⟩)
    (words 6 key) 28

def new256 (key : List UInt8) : LeaCipher where
  roundKeys := schedule
    (fun i t =>
      let d := delta.getD (i % 8) 0
      let base := 6 * i
      stir d i (stir d i (stir d i (stir d i (stir d i (stir d i t (base % 8) 0 1)
        ((base + 1) % 8) 1 3) ((base + 2) % 8) 2 6) ((base + 3) % 8) 3 11) ((base + 4) % 8) 4 13)
        ((base + 5) % 8) 5 17)
    (fun i t =>
      let base := 6 * i
      ⟨t.getD (base % 8) 0, t.getD ((base + 1) % 8) 0, t.getD ((base + 2) % 8) 0,
        t.getD ((base + 3) % 8) 0, t.getD ((base + 4) % 8) 0, t.getD ((base + 5) % 8) 0⟩)
    (words 8 key) 32

/-- The state of the network: four words. -/
structure Words where
  x0 : UInt32
  x1 : UInt32
  x2 : UInt32
  x3 : UInt32
  deriving Repr, DecidableEq

/-- One round. -/
def round (x : Words) (rk : RoundKey) : Words where
  x0 := rol ((x.x0 ^^^ rk.k0) + (x.x1 ^^^ rk.k1)) 9
  x1 := ror ((x.x1 ^^^ rk.k2) + (x.x2 ^^^ rk.k3)) 5
  x2 := ror ((x.x2 ^^^ rk.k4) + (x.x3 ^^^ rk.k5)) 3
  x3 := x.x0

/-- The words of a block. -/
def load (block : Block) : Words :=
  let t := words 4 block.toList
  ⟨t.getD 0 0, t.getD 1 0, t.getD 2 0, t.getD 3 0⟩

/-- The block of the words. -/
def store (x : Words) : Block :=
  ⟨(le32 x.x0 ++ (le32 x.x1 ++ (le32 x.x2 ++ le32 x.x3))).toArray, by simp⟩

def encryptBlock (c : LeaCipher) (block : Block) : Block :=
  store (c.roundKeys.foldl round (load block))

end LeaCipher

/-- The big-endian increment of the counter. -/
def ctr128Inc (counter : Block) : Block :=
  ⟨(incLE counter.toList.reverse).reverse.toArray, by simp⟩

structure LeaCtrDecryptor where
  cipher : LeaCipher
  counter : Block
  keystream : Block
  ksOffset : Nat
  authKey : List UInt8
  deriving Repr, DecidableEq

namespace LeaCtrDecryptor

def new (crates : Crates) (mode : UInt8) (password : String) (salt storedVerifier : List UInt8) :
    Except EggError LeaCtrDecryptor :=
  let build (keySize : Nat) (cipher : List UInt8 → LeaCipher) : Except EggError LeaCtrDecryptor :=
    let derived := crates.pbkdf2 (utf8Bytes password) salt 1000 (keySize * 2 + 2)
    let encKey := derived.take keySize
    let authKey := (derived.drop keySize).take keySize
    let verifier := derived.drop (keySize * 2)
    if verifier ≠ storedVerifier then .error .invalidPassword
    else .ok {
      cipher := cipher encKey
      counter := Vector.replicate 16 0
      keystream := Vector.replicate 16 0
      ksOffset := 16
      authKey }
  if mode = 1 then build 16 LeaCipher.new128
  else if mode = 3 then build 32 LeaCipher.new256
  else .error (.unsupportedEncryption mode)

def nextKeystreamBlock (d : LeaCtrDecryptor) : LeaCtrDecryptor :=
  { d with
    keystream := d.cipher.encryptBlock d.counter
    counter := ctr128Inc d.counter
    ksOffset := 0 }

/-- One byte of `decrypt`. -/
def decryptStep (d : LeaCtrDecryptor) (b : UInt8) : UInt8 × LeaCtrDecryptor :=
  let d := if 16 ≤ d.ksOffset then nextKeystreamBlock d else d
  (b ^^^ d.keystream.toList.getD d.ksOffset 0, { d with ksOffset := d.ksOffset + 1 })

def decrypt (data : List UInt8) (d : LeaCtrDecryptor) : List UInt8 × LeaCtrDecryptor :=
  Mealy.run decryptStep data d

/-! ## the stream -/

/-- A decryptor before its first byte. -/
def fresh (cipher : LeaCipher) (authKey : List UInt8) : LeaCtrDecryptor where
  cipher
  counter := Vector.replicate 16 0
  keystream := Vector.replicate 16 0
  ksOffset := 16
  authKey

/-- Counter `k`: the big-endian number `k`. -/
def counterBlock (k : Nat) : Block := ⟨(toLE 16 (k % 2 ^ 128)).reverse.toArray, by simp⟩

theorem ctr128Inc_iterate (k : Nat) : ctr128Inc^[k] (Vector.replicate 16 0) = counterBlock k := by
  induction k with
  | zero => decide
  | succ k ih =>
      have h : incLE (toLE 16 (k % 256 ^ 16)) = toLE 16 ((k + 1) % 256 ^ 16) := by
        rw [toLE_mod, toLE_mod, incLE_toLE]
      rw [Function.iterate_succ_apply', ih]
      simp only [ctr128Inc, counterBlock, Vector.toList_mk, List.reverse_reverse]
      exact Vector.toArray_inj.mp (congrArg (fun bs => bs.reverse.toArray) h)

/-- Decrypting is counter mode over the block cipher. -/
theorem decrypt_fresh (cipher : LeaCipher) (authKey data : List UInt8) :
    (decrypt data (fresh cipher authKey)).1 =
      (Mealy.run (Ctr.step cipher.encryptBlock ctr128Inc) data
        ⟨Vector.replicate 16 0, Vector.replicate 16 0, 16⟩).1 := by
  have hstep : ∀ (s : Ctr.State 16) b,
      decryptStep ⟨cipher, s.counter, s.keystream, s.offset, authKey⟩ b =
        ((Ctr.step cipher.encryptBlock ctr128Inc s b).1,
          let s' := (Ctr.step cipher.encryptBlock ctr128Inc s b).2
          ⟨cipher, s'.counter, s'.keystream, s'.offset, authKey⟩) := by
    intro s b
    by_cases h : 16 ≤ s.offset <;> simp [decryptStep, Ctr.step, Ctr.refill, nextKeystreamBlock, h]
  exact congrArg Prod.fst (Mealy.run_map hstep data ⟨_, _, _⟩)

end LeaCtrDecryptor

end Unegg
