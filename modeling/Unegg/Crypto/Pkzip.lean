import Unegg.Decryptor.Calls

/-!
# Unegg.Crypto.Pkzip

The cipher of PKZIP, whose keystream byte is the high byte of a 16-bit product.

`ZipCrypto` takes its byte from a 32-bit product instead, and takes the same one:
the lower half of a product is settled by the lower halves of the factors
(`decryptByte_eq`).  So the same key state is followed by the same bytes and the
same key states in both ciphers, whatever calls are made (`zipCrypto_is_pkzip`).
-/

namespace Unegg

namespace Pkzip

/-- The keystream byte, from a 16-bit product. -/
def decryptByte (z : ZipCrypto) : UInt8 :=
  let temp := (z.key2 ||| 2).toUInt16
  ((temp * (temp ^^^ 1)) >>> 8).toUInt8

def decryptStep (z : ZipCrypto) (b : UInt8) : UInt8 × ZipCrypto :=
  let plain := b ^^^ decryptByte z
  (plain, z.updateKeys plain)

def encryptStep (z : ZipCrypto) (plain : UInt8) : UInt8 × ZipCrypto :=
  (plain ^^^ decryptByte z, z.updateKeys plain)

def checkPassword (z : ZipCrypto) (verifyData : List UInt8) (storedCrc : UInt32) :
    Bool × ZipCrypto :=
  let (plain, z') := Mealy.run decryptStep verifyData z
  (plain.getLast?.getD 0 = (storedCrc >>> 24).toUInt8, z')

def encrypt (data : List UInt8) (z : ZipCrypto) : List UInt8 × ZipCrypto :=
  Mealy.run encryptStep data z

def decrypt (data : List UInt8) (z : ZipCrypto) : List UInt8 × ZipCrypto :=
  Mealy.run decryptStep data z

end Pkzip

/-! ## calls -/

/-- A call of a cipher. -/
inductive CipherCall where
  | checkPassword (verifyData : List UInt8) (storedCrc : UInt32)
  | encrypt (data : List UInt8)
  | decrypt (data : List UInt8)
  deriving Repr, DecidableEq

/-- What a call gives back. -/
inductive CipherReply where
  | accepted (ok : Bool)
  | bytes (data : List UInt8)
  deriving Repr, DecidableEq

def ZipCrypto.call (z : ZipCrypto) : CipherCall → CipherReply × ZipCrypto
  | .checkPassword verifyData storedCrc => (z.checkPassword verifyData storedCrc).map .accepted id
  | .encrypt data => (z.encrypt data).map .bytes id
  | .decrypt data => (z.decrypt data).map .bytes id

def Pkzip.call (z : ZipCrypto) : CipherCall → CipherReply × ZipCrypto
  | .checkPassword verifyData storedCrc =>
    (Pkzip.checkPassword z verifyData storedCrc).map .accepted id
  | .encrypt data => (Pkzip.encrypt data z).map .bytes id
  | .decrypt data => (Pkzip.decrypt data z).map .bytes id

/-! ## the ciphers agree -/

/-- The second byte of a word is in its lower half. -/
theorem toUInt8_shiftRight_eight (x : UInt32) :
    (x >>> 8).toUInt8 = (x.toUInt16 >>> 8).toUInt8 := by
  apply UInt8.toNat.inj
  simp [Nat.shiftRight_eq_div_pow]
  omega

/-- **The width of the product is not seen** in the keystream byte. -/
theorem decryptByte_eq (z : ZipCrypto) : z.decryptByte = Pkzip.decryptByte z := by
  have hlow : ((z.key2 ||| 2) ^^^ 1).toUInt16 = (z.key2 ||| 2).toUInt16 ^^^ 1 := by
    rw [UInt32.toUInt16_xor]
    rfl
  rw [ZipCrypto.decryptByte, toUInt8_shiftRight_eight, UInt32.toUInt16_mul, hlow]
  rfl

theorem decryptStep_eq : ZipCrypto.decryptStep = Pkzip.decryptStep := by
  funext z b
  rw [ZipCrypto.decryptStep, Pkzip.decryptStep, decryptByte_eq]

theorem encryptStep_eq : ZipCrypto.encryptStep = Pkzip.encryptStep := by
  funext z plain
  rw [ZipCrypto.encryptStep, Pkzip.encryptStep, decryptByte_eq]

/-- A call gives the same back, and leaves the same keys. -/
theorem call_eq : ZipCrypto.call = Pkzip.call := by
  funext z c
  cases c with
  | checkPassword verifyData storedCrc =>
      rw [ZipCrypto.call, Pkzip.call, ZipCrypto.checkPassword, Pkzip.checkPassword, decryptStep_eq]
  | encrypt data => rw [ZipCrypto.call, Pkzip.call, ZipCrypto.encrypt, Pkzip.encrypt, encryptStep_eq]
  | decrypt data => rw [ZipCrypto.call, Pkzip.call, ZipCrypto.decrypt, Pkzip.decrypt, decryptStep_eq]

/-- **ZipCrypto is the cipher of PKZIP**: from any password, any sequence of calls
gives the same replies and leaves the same keys; and however data is cut into
calls, the pieces are those of one call of PKZIP on the whole. -/
theorem zipCrypto_is_pkzip (crates : Crates) (password : List UInt8) :
    (∀ calls : List CipherCall, Mealy.run ZipCrypto.call calls (.new password) =
      Mealy.run Pkzip.call calls (.new password)) ∧
    ∀ (z : ZipCrypto) (chunks : List (List UInt8)),
      ((z.encryptCalls chunks).1.flatten, (z.encryptCalls chunks).2) =
        Pkzip.encrypt chunks.flatten z ∧
      (((Decryptor.zipCrypto z).decryptCalls crates chunks).1.flatten,
          ((Decryptor.zipCrypto z).decryptCalls crates chunks).2) =
        (Pkzip.decrypt chunks.flatten z).map id .zipCrypto := by
  refine ⟨fun calls => by rw [call_eq], fun z chunks => ⟨?_, ?_⟩⟩
  · rw [ZipCrypto.encryptCalls_flatten, ZipCrypto.encrypt, encryptStep_eq]
    rfl
  · rw [Decryptor.decryptCalls_flatten, Decryptor.decrypt, ZipCrypto.decrypt, decryptStep_eq]
    rfl

end Unegg
