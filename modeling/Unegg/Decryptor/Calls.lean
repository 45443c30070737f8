import Unegg.Decompress.Checksum
import Unegg.Decryptor

/-!
# Unegg.Decryptor.Calls

What a sequence of `decrypt` calls gives.

However a stream is cut into calls, the output is that of one call
(`decryptCalls_flatten`).  The two counter modes change each byte by its
position alone (`ctr_positions`); ZipCrypto undoes its own encryption, header
included, with the same keys after every byte (`zipCrypto_roundtrip`).
-/

namespace Unegg

open Bytes

variable {crates : Crates}

/-- Consecutive calls of `decrypt`. -/
def Decryptor.decryptCalls (crates : Crates) :
    List (List UInt8) → Decryptor → List (List UInt8) × Decryptor
  | [], d => ([], d)
  | data :: rest, d =>
    let (out, d) := d.decrypt crates data
    let (outs, d) := decryptCalls crates rest d
    (out :: outs, d)

theorem Decryptor.decrypt_nil (d : Decryptor) : d.decrypt crates [] = ([], d) := by
  cases d <;> rfl

/-- However a stream is cut, the calls give what one call gives. -/
theorem Decryptor.decryptCalls_flatten (crates : Crates) (chunks : List (List UInt8))
    (d : Decryptor) :
    ((d.decryptCalls crates chunks).1.flatten, (d.decryptCalls crates chunks).2) =
      d.decrypt crates chunks.flatten := by
  induction chunks generalizing d with
  | nil => rw [List.flatten_nil, decrypt_nil]; rfl
  | cons data rest ih => rw [List.flatten_cons, decrypt_append, ← ih]; rfl

/-! ## counter mode -/

theorem AesCtrDecryptor.decrypt_position (cipher : AesCipher) (authKey data : List UInt8) (i : Nat) :
    (decrypt crates data (fresh cipher authKey)).1[i]? =
      data[i]?.map (· ^^^
        (encryptBlock crates cipher (counterBlock (i / 16))).toList.getD (i % 16) 0) := by
  rw [decrypt_fresh, Ctr.getElem?_run (by decide), Ctr.keystreamByte, ctr128IncLe_iterate]

theorem LeaCtrDecryptor.decrypt_position (cipher : LeaCipher) (authKey data : List UInt8) (i : Nat) :
    (decrypt data (fresh cipher authKey)).1[i]? =
      data[i]?.map (· ^^^ (cipher.encryptBlock (counterBlock (i / 16))).toList.getD (i % 16) 0) := by
  rw [decrypt_fresh, Ctr.getElem?_run (by decide), Ctr.keystreamByte, ctr128Inc_iterate]

/-- **Counter mode**: whatever the calls, each byte is changed by the byte of
the keystream at its position, and a second pass gives the stream back. -/
theorem ctr_positions (crates : Crates) (aes : AesCipher) (lea : LeaCipher)
    (authKey : List UInt8) (chunks : List (List UInt8)) :
    let aesCtr := Decryptor.aesCtr (.fresh aes authKey)
    let leaCtr := Decryptor.leaCtr (.fresh lea authKey)
    (∀ i, (aesCtr.decryptCalls crates chunks).1.flatten[i]? =
      chunks.flatten[i]?.map (· ^^^ (AesCtrDecryptor.encryptBlock crates aes
        (AesCtrDecryptor.counterBlock (i / 16))).toList.getD (i % 16) 0)) ∧
    (∀ i, (leaCtr.decryptCalls crates chunks).1.flatten[i]? =
      chunks.flatten[i]?.map (· ^^^ (lea.encryptBlock
        (LeaCtrDecryptor.counterBlock (i / 16))).toList.getD (i % 16) 0)) ∧
    (aesCtr.decryptCalls crates (aesCtr.decryptCalls crates chunks).1).1.flatten = chunks.flatten ∧
    (leaCtr.decryptCalls crates (leaCtr.decryptCalls crates chunks).1).1.flatten =
      chunks.flatten := by
  have hcalls : ∀ (chunks : List (List UInt8)) (d : Decryptor),
      (d.decryptCalls crates chunks).1.flatten = (d.decrypt crates chunks.flatten).1 :=
    fun chunks d => congrArg Prod.fst (d.decryptCalls_flatten crates chunks)
  simp only [hcalls, Decryptor.decrypt]
  refine ⟨AesCtrDecryptor.decrypt_position aes authKey _,
    LeaCtrDecryptor.decrypt_position lea authKey _, ?_, ?_⟩
  · rw [AesCtrDecryptor.decrypt_fresh, AesCtrDecryptor.decrypt_fresh, Ctr.run_run (by decide)]
  · rw [LeaCtrDecryptor.decrypt_fresh, LeaCtrDecryptor.decrypt_fresh, Ctr.run_run (by decide)]

/-! ## ZipCrypto -/

namespace ZipCrypto

/-- Decrypting a byte undoes its encryption, with the same keys after it. -/
theorem decryptStep_encryptStep (z : ZipCrypto) (plain : UInt8) :
    decryptStep z (encryptStep z plain).1 = (plain, (encryptStep z plain).2) := by
  simp [decryptStep, encryptStep]

theorem decrypt_encrypt (data : List UInt8) (z : ZipCrypto) :
    decrypt (encrypt data z).1 z = (data, (encrypt data z).2) :=
  Mealy.run_inverse decryptStep_encryptStep data z

theorem encrypt_append (xs ys : List UInt8) (z : ZipCrypto) :
    encrypt (xs ++ ys) z = ((encrypt xs z).1 ++ (encrypt ys (encrypt xs z).2).1,
      (encrypt ys (encrypt xs z).2).2) := Mealy.run_append xs ys z

/-- The verification header of a checksum. -/
def header (filler : Vector UInt8 11) (crc : UInt32) : List UInt8 :=
  filler.toList ++ [(crc >>> 24).toUInt8]

/-- The header is accepted, and leaves the keys where its encryption left them. -/
theorem checkPassword_encrypt (filler : Vector UInt8 11) (crc : UInt32) (z : ZipCrypto) :
    z.checkPassword (z.encrypt (header filler crc)).1 crc =
      (true, (z.encrypt (header filler crc)).2) := by
  have h := decrypt_encrypt (header filler crc) z
  rw [decrypt] at h
  have hlast : (header filler crc).getLast?.getD 0 = (crc >>> 24).toUInt8 := by simp [header]
  rw [checkPassword, h]
  simp [hlast]

/-- Consecutive calls of `encrypt`. -/
def encryptCalls : List (List UInt8) → ZipCrypto → List (List UInt8) × ZipCrypto :=
  Mealy.runs encryptStep

theorem encryptCalls_flatten (blocks : List (List UInt8)) (z : ZipCrypto) :
    ((z.encryptCalls blocks).1.flatten, (z.encryptCalls blocks).2) = z.encrypt blocks.flatten :=
  Mealy.runs_flatten blocks z

end ZipCrypto

/-- **Round trip**: the header of a checksum is accepted, the blocks behind it
decrypt to what was encrypted however they are cut, and the keys of the two
sides agree after every byte. -/
theorem zipCrypto_roundtrip (crates : Crates) (password : List UInt8) (filler : Vector UInt8 11)
    (crc : UInt32) (blocks chunks : List (List UInt8))
    (hcut : chunks.flatten = (((ZipCrypto.new password).encrypt
      (ZipCrypto.header filler crc)).2.encryptCalls blocks).1.flatten) :
    let new := ZipCrypto.new password
    let sentHeader := new.encrypt (ZipCrypto.header filler crc)
    let sent := sentHeader.2.encryptCalls blocks
    let received := (Decryptor.zipCrypto sentHeader.2).decryptCalls crates chunks
    new.checkPassword sentHeader.1 crc = (true, sentHeader.2) ∧
      received.1.flatten = blocks.flatten ∧ received.2 = .zipCrypto sent.2 ∧
      ∀ n, (new.encrypt ((ZipCrypto.header filler crc ++ blocks.flatten).take n)).2 =
        (new.decrypt ((sentHeader.1 ++ sent.1.flatten).take n)).2 := by
  intro new sentHeader sent received
  obtain ⟨hsent, hsentEnd⟩ :
      sent.1.flatten = (sentHeader.2.encrypt blocks.flatten).1 ∧
        sent.2 = (sentHeader.2.encrypt blocks.flatten).2 :=
    Prod.ext_iff.mp (ZipCrypto.encryptCalls_flatten blocks sentHeader.2)
  obtain ⟨hreceived, hreceivedEnd⟩ :
      received.1.flatten = (sentHeader.2.decrypt sent.1.flatten).1 ∧
        received.2 = .zipCrypto (sentHeader.2.decrypt sent.1.flatten).2 := by
    have h := Prod.ext_iff.mp ((Decryptor.zipCrypto sentHeader.2).decryptCalls_flatten crates chunks)
    rwa [hcut] at h
  have hback := ZipCrypto.decrypt_encrypt blocks.flatten sentHeader.2
  rw [← hsent] at hback
  refine ⟨ZipCrypto.checkPassword_encrypt filler crc new, ?_, ?_, fun n => ?_⟩
  · rw [hreceived, hback]
  · rw [hreceivedEnd, hback, hsentEnd]
  · -- the stream of the sender is the encryption of header and content as one
    have hwhole : sentHeader.1 ++ sent.1.flatten =
        (new.encrypt (ZipCrypto.header filler crc ++ blocks.flatten)).1 := by
      rw [ZipCrypto.encrypt_append, hsent]
    have htake : (new.encrypt ((ZipCrypto.header filler crc ++ blocks.flatten).take n)).1 =
        (new.encrypt (ZipCrypto.header filler crc ++ blocks.flatten)).1.take n :=
      Mealy.run_take n _ new
    rw [hwhole, ← htake, ZipCrypto.decrypt_encrypt]

/-- The password `"pw"` and the content `"abc"`, cut in two ways. -/
theorem zipCrypto_roundtrip_sample :
    let new := ZipCrypto.new [0x70, 0x77]
    let sent := new.encrypt (ZipCrypto.header (Vector.replicate 11 7) 0x352441C2)
    let cut := (sent.2.encryptCalls [[0x61], [0x62, 0x63]]).1.flatten
    new.checkPassword sent.1 0x352441C2 = (true, sent.2) ∧
      ((Decryptor.zipCrypto sent.2).decryptCalls .storeOnly [cut.take 2, cut.drop 2]).1.flatten =
        [0x61, 0x62, 0x63] := by
  intro new sent cut
  have h := zipCrypto_roundtrip .storeOnly [0x70, 0x77] (Vector.replicate 11 7) 0x352441C2
    [[0x61], [0x62, 0x63]] [cut.take 2, cut.drop 2] (by simp [cut, sent, new])
  exact ⟨h.1, h.2.1⟩

end Unegg
