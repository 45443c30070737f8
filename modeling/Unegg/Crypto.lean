import Unegg.Crc32
import Unegg.Mealy

/-!
# Unegg.Crypto

ZipCrypto (`crypto.rs`).  `CRC32_TABLE` is `Crc32.tableEntry`; decrypting a
buffer in place is the run of a `Mealy` machine over its bytes.
-/

namespace Unegg

structure ZipCrypto where
  key0 : UInt32
  key1 : UInt32
  key2 : UInt32
  deriving Repr, DecidableEq

namespace ZipCrypto

def crc32Byte (crc : UInt32) (b : UInt8) : UInt32 := Crc32.byteStep crc b

def updateKeys (z : ZipCrypto) (c : UInt8) : ZipCrypto :=
  let key0 := crc32Byte z.key0 c
  let key1 := (z.key1 + (key0 &&& 0xFF)) * 134775813 + 1
  let key2 := crc32Byte z.key2 (key1 >>> 24).toUInt8
  ⟨key0, key1, key2⟩

def new (password : List UInt8) : ZipCrypto :=
  password.foldl updateKeys ⟨0x12345678, 0x23456789, 0x34567890⟩

/-- The keystream byte, from a full 32-bit product. -/
def decryptByte (z : ZipCrypto) : UInt8 :=
  let temp := z.key2 ||| 2
  ((temp * (temp ^^^ 1)) >>> 8).toUInt8

/-- One byte of `check_password` and of `decrypt`: the plain byte goes into
the keys. -/
def decryptStep (z : ZipCrypto) (b : UInt8) : UInt8 × ZipCrypto :=
  let plain := b ^^^ z.decryptByte
  (plain, z.updateKeys plain)

def encryptStep (z : ZipCrypto) (plain : UInt8) : UInt8 × ZipCrypto :=
  (plain ^^^ z.decryptByte, z.updateKeys plain)

/-- Whether the decrypted header ends in the top byte of the checksum, and the
keys after the header. -/
def checkPassword (z : ZipCrypto) (verifyData : List UInt8) (storedCrc : UInt32) :
    Bool × ZipCrypto :=
  let (plain, z') := Mealy.run decryptStep verifyData z
  (plain.getLast?.getD 0 = (storedCrc >>> 24).toUInt8, z')

def encrypt (data : List UInt8) (z : ZipCrypto) : List UInt8 × ZipCrypto :=
  Mealy.run encryptStep data z

def decrypt (data : List UInt8) (z : ZipCrypto) : List UInt8 × ZipCrypto :=
  Mealy.run decryptStep data z

end ZipCrypto

end Unegg
