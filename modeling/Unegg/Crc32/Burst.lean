import Unegg.Crc32

/-!
# Crc32.Burst

The checksum tells byte strings apart that differ in up to four adjacent bytes
(`crc32_burst`).

A step of the register is one to one (`shift8_injective`), so two registers that
differ still do behind equal bytes.  And the register behind at most four bytes is
that of the bytes as one number, taken in at once (`toNat_foldl`): nothing of
them has been shifted out yet.
-/

namespace Crc32

/-- A step of the register, as a number that has taken in its byte. -/
def shift8 (z : Nat) : Nat := (tableEntry (UInt32.ofNat (z % 2 ^ 8))).toNat ^^^ z / 2 ^ 8

/-- Bytes as one number, the first one at its low end. -/
def word : List UInt8 → Nat
  | [] => 0
  | b :: bs => b.toNat ^^^ word bs * 2 ^ 8

theorem toNat_byteStep (crc : UInt32) (b : UInt8) :
    (byteStep crc b).toNat = shift8 (crc.toNat ^^^ b.toNat) := by
  have hb : b.toNat / 2 ^ 8 = 0 := Nat.div_eq_of_lt b.toNat_lt
  have hlow : (crc ^^^ b.toUInt32) &&& 0xFF =
      UInt32.ofNat ((crc.toNat ^^^ b.toNat) % 2 ^ 8) := by
    rw [← UInt32.toNat_inj, UInt32.toNat_and, UInt32.toNat_xor, UInt8.toNat_toUInt32]
    have hmask : (0xFF : UInt32).toNat = 2 ^ 8 - 1 := rfl
    rw [hmask, Nat.and_two_pow_sub_one_eq_mod, UInt32.toNat_ofNat']
    omega
  have hhigh : (crc >>> 8).toNat = (crc.toNat ^^^ b.toNat) / 2 ^ 8 := by
    rw [Nat.xor_div_two_pow, hb, Nat.xor_zero, UInt32.toNat_shiftRight, Nat.shiftRight_eq_div_pow]
    rfl
  rw [byteStep, UInt32.toNat_xor, hlow, hhigh, shift8]

/-! ## one step -/

/-- The top bytes of the table are all different. -/
theorem table_nodup :
    ((List.range 256).map fun i => (tableEntry (UInt32.ofNat i)).toNat / 2 ^ 24).Nodup := by
  decide +kernel

theorem shift8_lt {z : Nat} (hz : z < 2 ^ 32) : shift8 z < 2 ^ 32 :=
  Nat.xor_lt_two_pow (UInt32.toNat_lt _) (by omega)

theorem shift8_injective {z z' : Nat} (hz : z < 2 ^ 32) (hz' : z' < 2 ^ 32)
    (h : shift8 z = shift8 z') : z = z' := by
  have htop := congrArg (· / 2 ^ 24) h
  simp only [shift8, Nat.xor_div_two_pow] at htop
  rw [Nat.div_eq_of_lt (by omega : z / 2 ^ 8 < 2 ^ 24),
    Nat.div_eq_of_lt (by omega : z' / 2 ^ 8 < 2 ^ 24), Nat.xor_zero, Nat.xor_zero] at htop
  have hlow : z % 2 ^ 8 = z' % 2 ^ 8 :=
    List.inj_on_of_nodup_map table_nodup (List.mem_range.mpr (by omega))
      (List.mem_range.mpr (by omega)) htop
  rw [shift8, shift8, hlow, Nat.xor_right_inj] at h
  omega

/-- What lies above the low byte is only moved. -/
theorem shift8_xor (z m : Nat) : shift8 (z ^^^ m * 2 ^ 8) = shift8 z ^^^ m := by
  rw [shift8, Nat.xor_mod_two_pow, Nat.xor_div_two_pow, Nat.mul_mod_left, Nat.xor_zero,
    Nat.mul_div_cancel _ (by decide), ← Nat.xor_assoc, shift8]

/-! ## several bytes -/

theorem word_lt (bs : List UInt8) : word bs < 2 ^ (8 * bs.length) := by
  induction bs with
  | nil => decide
  | cons b bs ih =>
      have hsplit : 2 ^ (8 * (b :: bs).length) = 2 ^ (8 * bs.length) * 2 ^ 8 := by
        rw [List.length_cons, Nat.mul_succ, Nat.pow_add]
      have hpos := Nat.two_pow_pos (8 * bs.length)
      have hb := b.toNat_lt
      refine Nat.xor_lt_two_pow ?_ ?_
      · omega
      · omega

theorem word_injective {x y : List UInt8} (hlen : x.length = y.length) (h : word x = word y) :
    x = y := by
  induction x generalizing y with
  | nil => exact (List.length_eq_zero_iff.mp hlen.symm).symm
  | cons b x ih =>
      cases y with
      | nil => simp at hlen
      | cons c y =>
          have hb := b.toNat_lt
          have hc := c.toNat_lt
          have hlow := congrArg (· % 2 ^ 8) h
          have hhigh := congrArg (· / 2 ^ 8) h
          simp only [word, Nat.xor_mod_two_pow, Nat.mul_mod_left, Nat.xor_zero] at hlow
          simp only [word, Nat.xor_div_two_pow, Nat.mul_div_cancel _ (by decide : 0 < 2 ^ 8),
            Nat.div_eq_of_lt hb, Nat.div_eq_of_lt hc, Nat.zero_xor] at hhigh
          rw [Nat.mod_eq_of_lt hb, Nat.mod_eq_of_lt hc] at hlow
          rw [UInt8.toNat_inj.mp hlow, ih (by simpa using hlen) hhigh]

/-- Bytes that are taken in at once. -/
theorem toNat_foldl (bs : List UInt8) (crc : UInt32) :
    (bs.foldl byteStep crc).toNat = shift8^[bs.length] (crc.toNat ^^^ word bs) := by
  induction bs generalizing crc with
  | nil => simp [word]
  | cons b bs ih =>
      rw [List.foldl_cons, ih, toNat_byteStep, ← shift8_xor, List.length_cons,
        Function.iterate_succ_apply, word, Nat.xor_assoc]

theorem iterate_injective {z z' : Nat} (n : Nat) (hz : z < 2 ^ 32) (hz' : z' < 2 ^ 32)
    (h : shift8^[n] z = shift8^[n] z') : z = z' := by
  induction n generalizing z z' with
  | zero => exact h
  | succ n ih => exact shift8_injective hz hz' (ih (shift8_lt hz) (shift8_lt hz') h)

/-- Different registers stay different. -/
theorem foldl_injective (bs : List UInt8) {crc crc' : UInt32}
    (h : bs.foldl byteStep crc = bs.foldl byteStep crc') : crc = crc' := by
  induction bs generalizing crc crc' with
  | nil => exact h
  | cons b bs ih =>
      have hstep := congrArg UInt32.toNat (ih h)
      rw [toNat_byteStep, toNat_byteStep] at hstep
      have hb := b.toNat_lt
      have hxor := shift8_injective (Nat.xor_lt_two_pow crc.toNat_lt (by omega))
        (Nat.xor_lt_two_pow crc'.toNat_lt (by omega)) hstep
      exact UInt32.toNat_inj.mp (Nat.xor_left_inj.mp hxor)

/-- **A burst of up to four bytes is seen.** -/
theorem crc32_burst {before x y after : List UInt8} (hlen : x.length = y.length)
    (hshort : x.length ≤ 4) (h : crc32 (before ++ x ++ after) = crc32 (before ++ y ++ after)) :
    x = y := by
  have hstate : (before ++ x ++ after).foldl byteStep 0xFFFFFFFF =
      (before ++ y ++ after).foldl byteStep 0xFFFFFFFF := by
    have h := congrArg (· ^^^ 0xFFFFFFFF) h
    simpa [crc32, Hasher.finalize, Hasher.update, Hasher.new] using h
  rw [List.foldl_append, List.foldl_append, List.foldl_append, List.foldl_append] at hstate
  have hburst := congrArg UInt32.toNat (foldl_injective after hstate)
  rw [toNat_foldl x, toNat_foldl y, ← hlen] at hburst
  have hbound : ∀ bs : List UInt8, bs.length ≤ 4 → word bs < 2 ^ 32 := fun bs hbs =>
    (word_lt bs).trans_le (Nat.pow_le_pow_right (by decide) (by omega))
  have hxor := iterate_injective x.length
    (Nat.xor_lt_two_pow (UInt32.toNat_lt _) (hbound x hshort))
    (Nat.xor_lt_two_pow (UInt32.toNat_lt _) (hbound y (hlen ▸ hshort))) hburst
  exact word_injective hlen (Nat.xor_right_inj.mp hxor)

end Crc32
