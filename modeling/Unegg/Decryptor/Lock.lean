import Unegg.Archive.Wire
import Unegg.Decryptor.Calls

/-!
# Unegg.Decryptor.Lock

How an archive writer encrypts an entry, the other side of `setup_decryptor`.

A `Lock` is what the writer chooses: the method, and what is random about it.
From the password and the lock come the keys (`Lock.decryptor`) and, with the
encrypted data, the encryption info of the entry (`Lock.field`).  `Lock.setup`
says that the reader of that info gets the keys back, and the footer to check.
-/

namespace Unegg

open Bytes

variable (crates : Crates)

/-! ## encrypting -/

/-- Encrypt under the keys of a decryptor.  Counter mode encrypts as it
decrypts. -/
def Decryptor.encrypt (data : List UInt8) : Decryptor → List UInt8 × Decryptor
  | zipCrypto z => ((z.encrypt data).1, zipCrypto (z.encrypt data).2)
  | aesCtr d => ((d.decrypt crates data).1, aesCtr (d.decrypt crates data).2)
  | leaCtr d => ((d.decrypt data).1, leaCtr (d.decrypt data).2)

def encryptSome (data : List UInt8) : Option Decryptor → List UInt8 × Option Decryptor
  | none => (data, none)
  | some d => ((d.encrypt crates data).1, some (d.encrypt crates data).2)

variable {crates}

theorem AesCtrDecryptor.decrypt_decrypt (data : List UInt8) (d : AesCtrDecryptor) :
    d.decrypt crates (d.decrypt crates data).1 = (data, (d.decrypt crates data).2) :=
  Mealy.run_inverse (fun _ _ => by simp [decryptStep]) data d

theorem LeaCtrDecryptor.decrypt_decrypt (data : List UInt8) (d : LeaCtrDecryptor) :
    d.decrypt (d.decrypt data).1 = (data, (d.decrypt data).2) :=
  Mealy.run_inverse (fun _ _ => by simp [decryptStep]) data d

/-- Decrypting undoes encrypting, and leaves the keys where encrypting did. -/
theorem Decryptor.decrypt_encrypt (data : List UInt8) (d : Decryptor) :
    d.decrypt crates (d.encrypt crates data).1 = (data, (d.encrypt crates data).2) := by
  cases d with
  | zipCrypto z => simp [encrypt, decrypt, ZipCrypto.decrypt_encrypt]
  | aesCtr d => simp [encrypt, decrypt, AesCtrDecryptor.decrypt_decrypt]
  | leaCtr d => simp [encrypt, decrypt, LeaCtrDecryptor.decrypt_decrypt]

/-- What was encrypted is decrypted by the same state. -/
theorem decryptSome_encryptSome (data : List UInt8) (d : Option Decryptor) :
    decryptSome crates (encryptSome crates data d).1 d = (data, (encryptSome crates data d).2) := by
  cases d with
  | none => rfl
  | some d => simp [encryptSome, decryptSome, Decryptor.decrypt_encrypt]

/-- Encrypting keeps the length. -/
@[simp] theorem length_encryptSome (data : List UInt8) (d : Option Decryptor) :
    (encryptSome crates data d).1.length = data.length := by
  rcases d with _ | (z | a | l) <;>
    simp [encryptSome, Decryptor.encrypt, ZipCrypto.encrypt, AesCtrDecryptor.decrypt,
      LeaCtrDecryptor.decrypt]

/-! ## locks -/

/-- The ciphers that run in counter mode. -/
inductive CtrCipher where
  | aes128
  | aes256
  | lea128
  | lea256
  deriving Repr, DecidableEq

namespace CtrCipher

def methodByte : CtrCipher → UInt8
  | aes128 => 1
  | aes256 => 2
  | lea128 => 5
  | lea256 => 6

def saltSize : CtrCipher → Nat
  | aes128 | lea128 => 8
  | aes256 | lea256 => 16

def keySize : CtrCipher → Nat
  | aes128 | lea128 => 16
  | aes256 | lea256 => 32

/-- The decryptor of two derived keys, before its first byte. -/
def start (encKey authKey : List UInt8) : CtrCipher → Decryptor
  | aes128 => .aesCtr (.fresh (.aes128 encKey) authKey)
  | aes256 => .aesCtr (.fresh (.aes256 encKey) authKey)
  | lea128 => .leaCtr (.fresh (.new128 encKey) authKey)
  | lea256 => .leaCtr (.fresh (.new256 encKey) authKey)

variable (crates)

/-- What is derived from the password: two keys and the verifier. -/
def derived (c : CtrCipher) (pwd : String) (salt : List UInt8) : List UInt8 :=
  crates.pbkdf2 (utf8Bytes pwd) salt 1000 (c.keySize * 2 + 2)

def encKey (c : CtrCipher) (pwd : String) (salt : List UInt8) : List UInt8 :=
  (c.derived crates pwd salt).take c.keySize

def authKey (c : CtrCipher) (pwd : String) (salt : List UInt8) : List UInt8 :=
  ((c.derived crates pwd salt).drop c.keySize).take c.keySize

def verifier (c : CtrCipher) (pwd : String) (salt : List UInt8) : List UInt8 :=
  (c.derived crates pwd salt).drop (c.keySize * 2)

variable {crates}

@[simp] theorem length_verifier (c : CtrCipher) (pwd : String) (salt : List UInt8) :
    (c.verifier crates pwd salt).length = 2 := by
  rw [verifier, derived, List.length_drop, crates.length_pbkdf2]
  omega

end CtrCipher

/-- What the writer chooses: for ZipCrypto the filler of the verification
header and the checksum it ends in, else the salt and whether there is an
authentication footer. -/
inductive Lock where
  | zipCrypto (filler : Vector UInt8 11) (crc : UInt32)
  | ctr (cipher : CtrCipher) (salt : List UInt8) (length_salt : salt.length = cipher.saltSize)
      (footer : Bool)

namespace Lock

variable (crates)

/-- The keys the data is encrypted under. -/
def decryptor (pwd : String) : Lock → Decryptor
  | zipCrypto filler crc =>
    .zipCrypto ((ZipCrypto.new (utf8Bytes pwd)).encrypt (ZipCrypto.header filler crc)).2
  | ctr c salt _ _ => c.start (c.encKey crates pwd salt) (c.authKey crates pwd salt)

def methodByte : Lock → UInt8
  | zipCrypto _ _ => 0
  | ctr c _ _ _ => c.methodByte

/-- The footer of the data as it is stored, with its key. -/
def auth (pwd : String) (stored : List UInt8) : Lock → Option AuthInfo
  | zipCrypto _ _ => none
  | ctr c salt _ footer =>
    if footer then
      some ⟨c.authKey crates pwd salt,
        (crates.hmacSha1 (c.authKey crates pwd salt) stored).take 10⟩
    else none

/-- The payload of the encryption info. -/
def payload (pwd : String) (stored : List UInt8) : Lock → List UInt8
  | zipCrypto filler crc =>
    ((ZipCrypto.new (utf8Bytes pwd)).encrypt (ZipCrypto.header filler crc)).1 ++ le32 crc
  | ctr c salt h footer =>
    salt ++ (c.verifier crates pwd salt ++
      (((ctr c salt h footer).auth crates pwd stored).map AuthInfo.tag).getD [])

variable {crates} {pwd : String} {stored : List UInt8}

theorem length_tag (crates : Crates) (key msg : List UInt8) :
    ((crates.hmacSha1 key msg).take 10).length = 10 := by
  rw [List.length_take, crates.length_hmacSha1]
  rfl

/-- The payload of a lock has one of the lengths its method allows. -/
theorem length_payload (l : Lock) : (l.payload crates pwd stored).length ∈
    (EncryptionMethod.fromByte l.methodByte).payloadLengths := by
  rcases l with ⟨filler, crc⟩ | ⟨c, salt, hsalt, _ | _⟩
  · simp only [payload, ZipCrypto.encrypt, List.length_append, Mealy.length_run, length_le32]
    simp [ZipCrypto.header, methodByte, EncryptionMethod.fromByte, EncryptionMethod.payloadLengths]
  · cases c <;> simp [payload, auth, hsalt, CtrCipher.saltSize, methodByte, CtrCipher.methodByte,
      EncryptionMethod.fromByte, EncryptionMethod.payloadLengths]
  · simp only [payload, auth, if_true, Option.map_some, Option.getD_some, List.length_append,
      CtrCipher.length_verifier, length_tag, hsalt]
    cases c <;> simp [CtrCipher.saltSize, methodByte, CtrCipher.methodByte,
      EncryptionMethod.fromByte, EncryptionMethod.payloadLengths]

variable (crates pwd stored)

/-- The encryption info of an entry with this data. -/
def field (l : Lock) : EncryptField where
  flags := 0
  methodByte := l.methodByte
  payload := l.payload crates pwd stored
  valid := l.length_payload
  fits := by
    have h : (l.payload crates pwd stored).length ∈ _ := l.length_payload
    have hle : ∀ m : EncryptionMethod, ∀ n ∈ m.payloadLengths, n ≤ 28 := by
      intro m
      cases m <;> simp [EncryptionMethod.payloadLengths]
    have := hle _ _ h
    change 1 + _ < 2 ^ 16
    omega

variable {crates pwd stored}

/-- Where the parts of the payload stand. -/
theorem payload_parts {c : CtrCipher} {salt : List UInt8} {h : salt.length = c.saltSize}
    {footer : Bool} {l : Lock} (hl : l = ctr c salt h footer) :
    c.saltSize + 2 ≤ (l.payload crates pwd stored).length ∧
      (l.payload crates pwd stored).take c.saltSize = salt ∧
      ((l.payload crates pwd stored).drop c.saltSize).take 2 = c.verifier crates pwd salt ∧
      authFooter (l.payload crates pwd stored) c.saltSize =
        (l.auth crates pwd stored).map AuthInfo.tag := by
  subst hl
  have hverifier : (c.verifier crates pwd salt).length = 2 := c.length_verifier pwd salt
  refine ⟨?_, ?_, ?_, ?_⟩
  · simp [payload, h, hverifier]
  · rw [payload, take_append_of_length h]
  · rw [payload, drop_append_of_length h, take_append_of_length hverifier]
  · have hdrop : (payload crates pwd stored (ctr c salt h footer)).drop (c.saltSize + 2) =
        (((ctr c salt h footer).auth crates pwd stored).map AuthInfo.tag).getD [] := by
      rw [payload, ← List.drop_drop, drop_append_of_length h, drop_append_of_length hverifier]
    have hlen : (payload crates pwd stored (ctr c salt h footer)).length =
        c.saltSize + 2 + if footer then 10 else 0 := by
      cases footer with
      | false => simp [payload, auth, h]
      | true =>
          simp only [payload, auth, if_true, Option.map_some, Option.getD_some,
            List.length_append, hverifier, length_tag, h]
    rw [authFooter, hdrop, hlen]
    cases footer with
    | false => simp [auth]
    | true =>
        simp only [auth, if_true, Option.map_some, Option.getD_some]
        rw [if_pos le_rfl, List.take_of_length_le (length_tag crates _ _).le]

/-- An AES header is taken apart into salt, verifier and tag. -/
theorem buildAes_run {data salt : List UInt8} {n : Nat} {mode : UInt8} {d : AesCtrDecryptor}
    (hlen : n + 2 ≤ data.length) (hsalt : data.take n = salt)
    (hnew : AesCtrDecryptor.new crates mode pwd salt ((data.drop n).take 2) = .ok d) :
    buildAes crates data pwd n mode =
      .ok ⟨.aesCtr d, (authFooter data n).map fun tag => ⟨d.authKey, tag⟩⟩ := by
  rw [buildAes, if_neg (by omega), hsalt]
  simp only [hnew, bind, Except.bind, pure, Except.pure]

/-- A LEA header is taken apart into salt, verifier and tag. -/
theorem buildLea_run {data salt : List UInt8} {n : Nat} {mode : UInt8} {d : LeaCtrDecryptor}
    (hlen : n + 2 ≤ data.length) (hsalt : data.take n = salt)
    (hnew : LeaCtrDecryptor.new crates mode pwd salt ((data.drop n).take 2) = .ok d) :
    buildLea crates data pwd n mode =
      .ok ⟨.leaCtr d, (authFooter data n).map fun tag => ⟨d.authKey, tag⟩⟩ := by
  rw [buildLea, if_neg (by omega), hsalt]
  simp only [hnew, bind, Except.bind, pure, Except.pure]

/-- The verifier of a derivation is the one it is compared with. -/
theorem setup_ctr {c : CtrCipher} {salt data : List UInt8} {entry : EggFileEntry}
    (hinfo : entry.encryptInfo = some ⟨.fromByte c.methodByte, data⟩)
    (hlen : c.saltSize + 2 ≤ data.length) (hsalt : data.take c.saltSize = salt)
    (hverifier : (data.drop c.saltSize).take 2 = c.verifier crates pwd salt) :
    setupDecryptor crates entry (some pwd) =
      .ok (some ⟨c.start (c.encKey crates pwd salt) (c.authKey crates pwd salt),
        (authFooter data c.saltSize).map fun tag => ⟨c.authKey crates pwd salt, tag⟩⟩) := by
  rw [setupDecryptor, hinfo]
  cases c with
  | aes128 =>
      have hnew : AesCtrDecryptor.new crates 1 pwd salt ((data.drop 8).take 2) =
          .ok (.fresh _ _) := if_neg (not_not.mpr hverifier.symm)
      exact congrArg (some <$> ·) (buildAes_run hlen hsalt hnew)
  | aes256 =>
      have hnew : AesCtrDecryptor.new crates 3 pwd salt ((data.drop 16).take 2) =
          .ok (.fresh _ _) := if_neg (not_not.mpr hverifier.symm)
      exact congrArg (some <$> ·) (buildAes_run hlen hsalt hnew)
  | lea128 =>
      have hnew : LeaCtrDecryptor.new crates 1 pwd salt ((data.drop 8).take 2) =
          .ok (.fresh _ _) := if_neg (not_not.mpr hverifier.symm)
      exact congrArg (some <$> ·) (buildLea_run hlen hsalt hnew)
  | lea256 =>
      have hnew : LeaCtrDecryptor.new crates 3 pwd salt ((data.drop 16).take 2) =
          .ok (.fresh _ _) := if_neg (not_not.mpr hverifier.symm)
      exact congrArg (some <$> ·) (buildLea_run hlen hsalt hnew)

/-- **Setting up** a locked entry gives the keys it was locked with, and the
footer of its data. -/
theorem setup (l : Lock) {entry : EggFileEntry}
    (hinfo : entry.encryptInfo = some (l.field crates pwd stored).info) :
    setupDecryptor crates entry (some pwd) =
      .ok (some ⟨l.decryptor crates pwd, l.auth crates pwd stored⟩) := by
  cases l with
  | zipCrypto filler crc =>
      have hsent : ((ZipCrypto.new (utf8Bytes pwd)).encrypt (ZipCrypto.header filler crc)).1.length =
          12 := by
        simp [ZipCrypto.encrypt, ZipCrypto.header]
      have hcrc : (le32 crc).take 4 = le32 crc := List.take_of_length_le (by simp)
      simp only [setupDecryptor, hinfo, field, EncryptField.info, EncryptField.method, methodByte,
        payload, setupZipCrypto, List.length_append, hsent, length_le32,
        take_append_of_length hsent, drop_append_of_length hsent, hcrc, ofLE_le32]
      simp [EncryptionMethod.fromByte, ZipCrypto.checkPassword_encrypt, decryptor, auth,
        Functor.map, Except.map]
  | ctr c salt hsalt footer =>
      obtain ⟨hlen, htake, hverifier, hfooter⟩ :=
        @payload_parts crates pwd stored c salt hsalt footer _ rfl
      have hsetup := setup_ctr hinfo hlen htake hverifier
      rw [hsetup]
      simp only [field, hfooter]
      cases footer <;> rfl

end Lock

end Unegg
