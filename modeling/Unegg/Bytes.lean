import Mathlib

/-!
# Unegg.Bytes

Byte lists: little-endian integers of a fixed width and the `take`/`drop`
algebra of appended buffers.  Everything here is about lists of bytes only;
the readers and the wire format above it never redo list arithmetic.
-/

namespace Bytes

/-! ## take/drop over appended buffers -/

/-- Taking the length of a prefix from an append gives the prefix. -/
theorem take_append_of_length {α : Type} {xs ys : List α} {k : Nat} (h : xs.length = k) :
    (xs ++ ys).take k = xs := by
  subst h; simp

/-- Dropping the length of a prefix from an append gives the suffix. -/
theorem drop_append_of_length {α : Type} {xs ys : List α} {k : Nat} (h : xs.length = k) :
    (xs ++ ys).drop k = ys := by
  subst h; simp

/-! ## little-endian integers -/

/-- The `k` low bytes of `n`, least significant first (`to_le_bytes`). -/
def toLE : Nat → Nat → List UInt8
  | 0, _ => []
  | k + 1, n => UInt8.ofNat (n % 256) :: toLE k (n / 256)

/-- The number a byte list denotes, least significant byte first
(`from_le_bytes`). -/
def ofLE : List UInt8 → Nat
  | [] => 0
  | b :: bs => b.toNat + 256 * ofLE bs

@[simp] theorem length_toLE (k n : Nat) : (toLE k n).length = k := by
  induction k generalizing n with
  | zero => rfl
  | succ k ih => simp [toLE, ih]

/-- Reading back `k` bytes loses what did not fit them and nothing else. -/
theorem ofLE_toLE (k n : Nat) : ofLE (toLE k n) = n % 256 ^ k := by
  induction k generalizing n with
  | zero => simp [toLE, ofLE, Nat.mod_one]
  | succ k ih =>
      have hb : (UInt8.ofNat (n % 256)).toNat = n % 256 := by
        rw [UInt8.toNat_ofNat']
        omega
      rw [toLE, ofLE, ih, hb, Nat.pow_succ, Nat.mul_comm (256 ^ k) 256, Nat.mod_mul]

/-- A number of `k` bytes is read back exactly. -/
theorem ofLE_toLE_of_lt {k n : Nat} (h : n < 256 ^ k) : ofLE (toLE k n) = n := by
  rw [ofLE_toLE, Nat.mod_eq_of_lt h]

/-- Bytes encode a number below what they can hold. -/
theorem ofLE_lt (bs : List UInt8) : ofLE bs < 256 ^ bs.length := by
  induction bs with
  | nil => simp [ofLE]
  | cons b bs ih =>
      have hb := b.toNat_lt
      rw [ofLE, List.length_cons, Nat.pow_succ]
      omega

/-- Writing back the number that was read gives the bytes it was read from. -/
theorem toLE_ofLE (bs : List UInt8) : toLE bs.length (ofLE bs) = bs := by
  induction bs with
  | nil => rfl
  | cons b bs ih =>
      have hb := b.toNat_lt
      have hmod : (b.toNat + 256 * ofLE bs) % 256 = b.toNat := by omega
      have hdiv : (b.toNat + 256 * ofLE bs) / 256 = ofLE bs := by omega
      rw [List.length_cons, ofLE, toLE, hmod, hdiv, ih, UInt8.ofNat_toNat]

/-- Only what fits the bytes is written. -/
theorem toLE_mod (k n : Nat) : toLE k (n % 256 ^ k) = toLE k n := by
  have h := toLE_ofLE (toLE k n)
  rwa [length_toLE, ofLE_toLE] at h

/-- `to_le_bytes` of the machine integers the format uses. -/
def le16 (v : UInt16) : List UInt8 := toLE 2 v.toNat

@[inherit_doc le16] def le32 (v : UInt32) : List UInt8 := toLE 4 v.toNat

@[inherit_doc le16] def le64 (v : UInt64) : List UInt8 := toLE 8 v.toNat

@[simp] theorem length_le16 (v : UInt16) : (le16 v).length = 2 := length_toLE _ _

@[simp] theorem length_le32 (v : UInt32) : (le32 v).length = 4 := length_toLE _ _

@[simp] theorem length_le64 (v : UInt64) : (le64 v).length = 8 := length_toLE _ _

/-- Two bytes are read as the number they encode. -/
@[simp] theorem ofLE_le16 (v : UInt16) : UInt16.ofNat (ofLE (le16 v)) = v := by
  rw [le16, ofLE_toLE_of_lt (by have := v.toNat_lt; omega), UInt16.ofNat_toNat]

/-- Four bytes are read as the number they encode. -/
@[simp] theorem ofLE_le32 (v : UInt32) : UInt32.ofNat (ofLE (le32 v)) = v := by
  rw [le32, ofLE_toLE_of_lt (by have := v.toNat_lt; omega), UInt32.ofNat_toNat]

/-- Eight bytes are read as the number they encode. -/
@[simp] theorem ofLE_le64 (v : UInt64) : UInt64.ofNat (ofLE (le64 v)) = v := by
  rw [le64, ofLE_toLE_of_lt (by have := v.toNat_lt; omega), UInt64.ofNat_toNat]

/-- Four bytes are the `u32` they denote. -/
theorem le32_ofLE {bs : List UInt8} (h : bs.length = 4) :
    le32 (UInt32.ofNat (ofLE bs)) = bs := by
  have hlt := ofLE_lt bs
  rw [h] at hlt
  have hn : (UInt32.ofNat (ofLE bs)).toNat = ofLE bs := by
    rw [UInt32.toNat_ofNat']
    omega
  have hbs := toLE_ofLE bs
  rw [h] at hbs
  rw [le32, hn, hbs]

/-- Different signatures have different bytes. -/
theorem le32_injective : Function.Injective le32 := by
  intro v w h
  rw [← ofLE_le32 v, h, ofLE_le32]

/-- Add one to the first byte, and on to the next as long as it wraps. -/
def incLE : List UInt8 → List UInt8
  | [] => []
  | b :: bs => if b + 1 ≠ 0 then (b + 1) :: bs else (b + 1) :: incLE bs

/-- Counting up keeps the length. -/
@[simp] theorem length_incLE (bs : List UInt8) : (incLE bs).length = bs.length := by
  induction bs with
  | nil => rfl
  | cons b bs ih =>
      rw [incLE]
      split <;> simp [ih]

/-- It is the addition of one, modulo the width. -/
theorem ofLE_incLE (bs : List UInt8) : ofLE (incLE bs) = (ofLE bs + 1) % 256 ^ bs.length := by
  induction bs with
  | nil => rfl
  | cons b bs ih =>
      have hlt := ofLE_lt bs
      have hb := b.toNat_lt
      have hadd : (b + 1).toNat = (b.toNat + 1) % 256 := UInt8.toNat_add b 1
      rw [incLE, List.length_cons, Nat.pow_succ]
      split
      · next hne =>
          have hne' : (b + 1).toNat ≠ 0 := fun h => hne (UInt8.toNat_inj.mp h)
          rw [ofLE, ofLE, Nat.mod_eq_of_lt (by omega)]
          omega
      · next hzero =>
          rw [not_not] at hzero
          have hzero' : (b + 1).toNat = 0 := by rw [hzero]; rfl
          have hsum : b.toNat + 256 * ofLE bs + 1 = 256 * (ofLE bs + 1) := by omega
          rw [ofLE, ofLE, ih, hzero', hsum, Nat.mul_comm (256 ^ bs.length), Nat.mul_mod_mul_left]
          omega

/-- Counting up the bytes of a number gives those of the next. -/
theorem incLE_toLE (k n : Nat) : incLE (toLE k n) = toLE k (n + 1) := by
  have h := toLE_ofLE (incLE (toLE k n))
  rw [length_incLE, length_toLE, ofLE_incLE, ofLE_toLE, length_toLE, Nat.mod_add_mod, toLE_mod] at h
  exact h.symm

end Bytes
