import Unegg.Coder.Accepts
import Unegg.Decompress
import Unegg.Decryptor

/-!
# Unegg.Decompress.Encode

What an encoder has to do for a decompressor to undo it (`Encodes`), for a
block that is then encrypted in any way.  Stored blocks do it
(`encodes_store`), whatever the third-party decompressors are.
-/

namespace Unegg

open Prog Crc32

/-- `encoded` is `content` as the method encodes it: of data that decrypts to
it the decompressor makes the content and its checksum, and it leaves the
decryptor behind the data. -/
def Encodes (crates : Crates) (methodByte : UInt8) (encoded content : List UInt8) : Prop :=
  ∀ data d, (decryptSome crates data d).1 = encoded →
    ((decompress crates (.fromByte methodByte) data.length content.length d.isSome).run
        (decryptSome crates) ByteSink.recorder).run ⟨data, d, []⟩ =
      (.ok (crc32 content), ⟨[], (decryptSome crates data d).2, content⟩)

variable {crates : Crates}

section Steps

variable {δ : Type} {dec : List UInt8 → δ → List UInt8 × δ}

theorem readExact_run {n : Nat} {io : Io δ (List UInt8)} (h : n ≤ io.rest.length) :
    ((Decode.readExact n).run dec ByteSink.recorder).run io =
      (.ok (io.rest.take n), { io with rest := io.rest.drop n }) := by
  simp [Decode.readExact, Coder.run, Nat.not_lt.mpr h]

theorem decrypt_run (bs : List UInt8) (io : Io δ (List UInt8)) :
    ((Decode.decrypt bs).run dec ByteSink.recorder).run io =
      (.ok (dec bs io.crypto).1, { io with crypto := (dec bs io.crypto).2 }) := rfl

theorem writeAll_run (bs : List UInt8) (io : Io δ (List UInt8)) :
    ((Decode.writeAll bs).run dec ByteSink.recorder).run io =
      (.ok (), { io with out := io.out ++ bs }) := by
  simp [Decode.writeAll, Coder.run, ByteSink.recorder_writeAllCounted]

end Steps

theorem decryptSome_nil (d : Option Decryptor) : decryptSome crates [] d = ([], d) := by
  rcases d with _ | (z | a | l) <;> rfl

/-- One chunk of stored data. -/
theorem storeStep_run {data out : List UInt8} {d : Option Decryptor} {hasher : Hasher}
    (hne : data.length ≠ 0) :
    ((storeStep (data.length, hasher)).run (decryptSome crates) ByteSink.recorder).run
        ⟨data, d, out⟩ =
      (.ok (.next ((data.drop 8192).length,
          hasher.update (decryptSome crates (data.take 8192) d).1)),
        ⟨data.drop 8192, (decryptSome crates (data.take 8192) d).2,
          out ++ (decryptSome crates (data.take 8192) d).1⟩) := by
  have htake : data.take (min data.length 8192) = data.take 8192 := by
    rw [Nat.min_comm, ← List.take_take, List.take_length]
  have hdrop : data.drop (min data.length 8192) = data.drop 8192 := by
    by_cases h : data.length ≤ 8192
    · rw [Nat.min_eq_left h, List.drop_length, List.drop_eq_nil_of_le h]
    · rw [Nat.min_eq_right (by omega)]
  have hlen : data.length - min data.length 8192 = (data.drop 8192).length := by
    rw [List.length_drop]
    omega
  have hle : min data.length 8192 ≤ (⟨data, d, out⟩ : Io (Option Decryptor) (List UInt8)).rest.length :=
    Nat.min_le_left _ _
  rw [storeStep, if_neg hne, Coder.run_bind, Run.bind_of_ok (readExact_run hle), Coder.run_bind,
    Run.bind_of_ok (decrypt_run _ _), Coder.run_bind, Run.bind_of_ok (writeAll_run _ _)]
  simp only [htake, hdrop, hlen]
  rfl

/-- The stored data goes out decrypted, chunk by chunk. -/
theorem storeLoop_run {n : Nat} {data out : List UInt8} {d : Option Decryptor} {hasher : Hasher}
    (hn : data.length < n) :
    (Run.loop (fun b => (storeStep b).run (decryptSome crates) ByteSink.recorder) n
        (data.length, hasher)).run ⟨data, d, out⟩ =
      (.ok (hasher.update (decryptSome crates data d).1).finalize,
        ⟨[], (decryptSome crates data d).2, out ++ (decryptSome crates data d).1⟩) := by
  induction n generalizing data out d hasher with
  | zero => omega
  | succ n ih =>
      by_cases hzero : data.length = 0
      · obtain rfl := List.length_eq_zero_iff.mp hzero
        have hdone : ((storeStep (([] : List UInt8).length, hasher)).run (decryptSome crates)
            ByteSink.recorder).run ⟨[], d, out⟩ = (.ok (.done hasher.finalize), ⟨[], d, out⟩) := rfl
        rw [Run.loop_done hdone, decryptSome_nil, Hasher.update_nil, List.append_nil]
      · have hlt : (data.drop 8192).length < n := by
          rw [List.length_drop]
          omega
        have hcut : decryptSome crates (data.take 8192 ++ data.drop 8192) d = _ :=
          decryptSome_append _ _ d
        rw [List.take_append_drop] at hcut
        rw [Run.loop_next (storeStep_run hzero), ih hlt, hcut, Hasher.update_update,
          List.append_assoc]

theorem extractStore_run (data : List UInt8) (d : Option Decryptor) :
    ((extractStore data.length).run (decryptSome crates) ByteSink.recorder).run ⟨data, d, []⟩ =
      (.ok (crc32 (decryptSome crates data d).1),
        ⟨[], (decryptSome crates data d).2, (decryptSome crates data d).1⟩) := by
  rw [extractStore, Coder.run_loop, storeLoop_run (Nat.lt_add_one _)]
  rfl

/-- What is stored is its own encoding. -/
theorem encodes_store (content : List UInt8) : Encodes crates 0 content content := by
  rintro data d rfl
  exact extractStore_run data d

end Unegg
