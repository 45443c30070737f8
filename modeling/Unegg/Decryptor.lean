import Unegg.AesCtr
import Unegg.Archive
import Unegg.Crypto
import Unegg.Lea

/-!
# Unegg.Decryptor

The `Decryptor` trait and its three implementations, and how an entry's
decryptor and its authentication material are set up (`extract.rs`).
-/

namespace Unegg

open Prog Bytes

/-- `Box<dyn Decryptor>`. -/
inductive Decryptor where
  | zipCrypto (z : ZipCrypto)
  | aesCtr (d : AesCtrDecryptor)
  | leaCtr (d : LeaCtrDecryptor)
  deriving Repr, DecidableEq

section Decrypt

variable (crates : Crates)

def Decryptor.decrypt (data : List UInt8) : Decryptor → List UInt8 × Decryptor
  | zipCrypto z => ((z.decrypt data).1, zipCrypto (z.decrypt data).2)
  | aesCtr d => ((d.decrypt crates data).1, aesCtr (d.decrypt crates data).2)
  | leaCtr d => ((d.decrypt data).1, leaCtr (d.decrypt data).2)

/-- `if let Some(c) = crypto { c.decrypt(data) }`. -/
def decryptSome (data : List UInt8) : Option Decryptor → List UInt8 × Option Decryptor
  | none => (data, none)
  | some d => ((d.decrypt crates data).1, some (d.decrypt crates data).2)

variable {crates}

@[simp] theorem decryptSome_none (data : List UInt8) :
    decryptSome crates data none = (data, none) := rfl

/-- Decrypting piece by piece is decrypting at once. -/
theorem Decryptor.decrypt_append (xs ys : List UInt8) (d : Decryptor) :
    d.decrypt crates (xs ++ ys) =
      ((d.decrypt crates xs).1 ++ ((d.decrypt crates xs).2.decrypt crates ys).1,
        ((d.decrypt crates xs).2.decrypt crates ys).2) := by
  cases d with
  | zipCrypto z => simp [decrypt, ZipCrypto.decrypt, Mealy.run_append]
  | aesCtr d => simp [decrypt, AesCtrDecryptor.decrypt, Mealy.run_append]
  | leaCtr d => simp [decrypt, LeaCtrDecryptor.decrypt, Mealy.run_append]

theorem decryptSome_append (xs ys : List UInt8) (d : Option Decryptor) :
    decryptSome crates (xs ++ ys) d =
      ((decryptSome crates xs d).1 ++ (decryptSome crates ys (decryptSome crates xs d).2).1,
        (decryptSome crates ys (decryptSome crates xs d).2).2) := by
  cases d with
  | none => rfl
  | some d => simp [decryptSome, Decryptor.decrypt_append]

theorem length_decryptSome (data : List UInt8) (d : Option Decryptor) :
    (decryptSome crates data d).1.length = data.length := by
  rcases d with _ | (z | a | l) <;>
    simp [decryptSome, Decryptor.decrypt, ZipCrypto.decrypt, AesCtrDecryptor.decrypt,
      LeaCtrDecryptor.decrypt]

end Decrypt

/-! ## setting up -/

structure AuthInfo where
  key : List UInt8
  /-- The stored authentication footer. -/
  tag : List UInt8
  deriving Repr, DecidableEq

structure FileCrypto where
  decryptor : Decryptor
  auth : Option AuthInfo
  deriving Repr, DecidableEq

/-- `data.get(start..start + 10)`, behind the salt and the verifier. -/
def authFooter (data : List UInt8) (saltSize : Nat) : Option (List UInt8) :=
  let start := saltSize + 2
  if start + 10 ≤ data.length then some ((data.drop start).take 10) else none

section Setup

variable (crates : Crates)

def buildAes (data : List UInt8) (pwd : String) (saltSize : Nat) (mode : UInt8) :
    Except EggError FileCrypto :=
  if data.length < saltSize + 2 then .error .corruptedFile
  else do
    let salt := data.take saltSize
    let verifier := (data.drop saltSize).take 2
    let dec ← AesCtrDecryptor.new crates mode pwd salt verifier
    return ⟨.aesCtr dec, (authFooter data saltSize).map fun tag => ⟨dec.authKey, tag⟩⟩

def buildLea (data : List UInt8) (pwd : String) (saltSize : Nat) (mode : UInt8) :
    Except EggError FileCrypto :=
  if data.length < saltSize + 2 then .error .corruptedFile
  else do
    let salt := data.take saltSize
    let verifier := (data.drop saltSize).take 2
    let dec ← LeaCtrDecryptor.new crates mode pwd salt verifier
    return ⟨.leaCtr dec, (authFooter data saltSize).map fun tag => ⟨dec.authKey, tag⟩⟩

def setupZipCrypto (data : List UInt8) (pwd : String) : Except EggError FileCrypto :=
  let zc := ZipCrypto.new (utf8Bytes pwd)
  if data.length < 16 then .error .corruptedFile
  else
    let verify := data.take 12
    let storedCrc := UInt32.ofNat (ofLE ((data.drop 12).take 4))
    let (valid, zc) := zc.checkPassword verify storedCrc
    if valid then .ok ⟨.zipCrypto zc, none⟩ else .error .invalidPassword

def setupDecryptor (entry : EggFileEntry) (password : Option String) :
    Except EggError (Option FileCrypto) :=
  match entry.encryptInfo with
  | none => .ok none
  | some ei =>
    match password with
    | none => .error .passwordNotSet
    | some pwd =>
      match ei.method with
      | .zipCrypto => some <$> setupZipCrypto ei.data pwd
      | .aes128 => some <$> buildAes crates ei.data pwd 8 1
      | .aes256 => some <$> buildAes crates ei.data pwd 16 3
      | .lea128 => some <$> buildLea crates ei.data pwd 8 1
      | .lea256 => some <$> buildLea crates ei.data pwd 16 3
      | .unknown n => .error (.unsupportedEncryption n)

def verifyPassword : List EggFileEntry → String → Except EggError Bool
  | [], _ => .ok true
  | entry :: entries, password =>
    if entry.encryptInfo.isSome then
      match setupDecryptor crates entry (some password) with
      | .ok _ => .ok true
      | .error .invalidPassword => .ok false
      | .error e => .error e
    else verifyPassword entries password

/-! ## authentication -/

/-- One chunk of a block goes into the message. -/
def hmacStep : Nat × List UInt8 → Parser (Flow (Nat × List UInt8) (List UInt8))
  | (remaining, msg) =>
    if remaining = 0 then return .done msg
    else do
      let n := min remaining 8192
      let buf ← readExact n
      return .next (remaining - n, msg ++ buf)

/-- The message of the blocks: their data as it is stored. -/
def hmacMessage : List EggBlock → List UInt8 → Parser (List UInt8)
  | [], msg => return msg
  | block :: blocks, msg => do
    seekStart block.dataPos
    let remaining := block.compressedSize.toNat
    let msg ← Run.loop hmacStep (remaining + 1) (remaining, msg)
    hmacMessage blocks msg

/-- A key of any length is taken, so that making the `Hmac` does not fail. -/
def verifyHmac (entry : EggFileEntry) (auth : AuthInfo) : Parser Unit := do
  let msg ← hmacMessage entry.blocks []
  let computed := crates.hmacSha1 auth.key msg
  if auth.tag.length ≠ 10 ∨ computed.length < 10 ∨ computed.take 10 ≠ auth.tag then
    Run.throw .authenticationFailed
  else return ()

/-- `if let Some(fc) = crypto && let Some(auth) = fc.auth { verify_hmac(..)? }`. -/
def authenticate (entry : EggFileEntry) (crypto : Option FileCrypto) : Parser Unit :=
  match crypto.bind FileCrypto.auth with
  | some auth => verifyHmac crates entry auth
  | none => return ()

end Setup

end Unegg
