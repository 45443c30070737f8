import Mathlib

/-!
# Crc32

The CRC-32 of zip and gzip (reflected polynomial `0xEDB88320`, initial value
and final mask all ones), as a hasher that takes its input in pieces.
-/

namespace Crc32

/-- One bit of the division. -/
def shiftBit (c : UInt32) : UInt32 := if c &&& 1 ≠ 0 then (0xEDB88320 : UInt32) ^^^ (c >>> 1) else c >>> 1

/-- The remainder of one byte: an entry of the usual table. -/
def tableEntry (i : UInt32) : UInt32 := shiftBit^[8] i

/-- Take one more byte into the register. -/
def byteStep (crc : UInt32) (b : UInt8) : UInt32 :=
  tableEntry ((crc ^^^ b.toUInt32) &&& 0xFF) ^^^ (crc >>> 8)

structure Hasher where
  state : UInt32
  deriving Repr, DecidableEq

namespace Hasher

def new : Hasher := ⟨0xFFFFFFFF⟩

def update (h : Hasher) (bs : List UInt8) : Hasher := ⟨bs.foldl byteStep h.state⟩

def finalize (h : Hasher) : UInt32 := h.state ^^^ 0xFFFFFFFF

@[simp] theorem update_nil (h : Hasher) : h.update [] = h := rfl

@[simp] theorem update_update (h : Hasher) (xs ys : List UInt8) :
    (h.update xs).update ys = h.update (xs ++ ys) := by
  simp [update]

end Hasher

/-- The checksum of a byte string. -/
def crc32 (bs : List UInt8) : UInt32 := (Hasher.new.update bs).finalize

@[simp] theorem crc32_nil : crc32 [] = 0 := by decide

/-- The check value of the standard: the checksum of `"123456789"`. -/
example : crc32 [0x31, 0x32, 0x33, 0x34, 0x35, 0x36, 0x37, 0x38, 0x39] = 0xCBF43926 := by
  decide +kernel

end Crc32
