import Unegg.Lea

/-!
# Unegg.Lea.Permutation

The LEA network can be run backwards.

Each round is undone by `unround`, whatever the round key, so the whole network
is undone key by key (`undoRounds_rounds`) and every cipher is a permutation of
the blocks (`encryptBlock_bijective`).  Counters that differ then give keystream
blocks that differ (`keystreamBlock_injective`).
-/

namespace Unegg

open Bytes

/-! ## rotations -/

/-- Rotating back undoes a rotation. -/
theorem ror_rol (x : UInt32) {n : Nat} (hn : n < 32) : ror (rol x n) n = x := by
  simp only [ror, rol, ← UInt32.toBitVec_inj]
  ext i hi
  simp only [BitVec.getElem_rotateRight, BitVec.getElem_rotateLeft, Nat.mod_eq_of_lt hn]
  split <;> split <;> congr 1 <;> omega

/-- Rotating on undoes rotating back. -/
theorem rol_ror (x : UInt32) {n : Nat} (hn : n < 32) : rol (ror x n) n = x := by
  simp only [ror, rol, ← UInt32.toBitVec_inj]
  ext i hi
  simp only [BitVec.getElem_rotateRight, BitVec.getElem_rotateLeft, Nat.mod_eq_of_lt hn]
  split <;> split <;> congr 1 <;> omega

namespace LeaCipher

/-! ## rounds -/

/-- The round backwards: the last word is the old first one, and each other
word gives the next old one. -/
def unround (y : Words) (rk : RoundKey) : Words :=
  let x0 := y.x3
  let x1 := (ror y.x0 9 - (x0 ^^^ rk.k0)) ^^^ rk.k1
  let x2 := (rol y.x1 5 - (x1 ^^^ rk.k2)) ^^^ rk.k3
  let x3 := (rol y.x2 3 - (x2 ^^^ rk.k4)) ^^^ rk.k5
  ⟨x0, x1, x2, x3⟩

/-- A sum and one of its summands give the other one back. -/
theorem sub_xor_cancel (a b k : UInt32) : (a + (b ^^^ k) - a) ^^^ k = b := by
  rw [UInt32.add_comm, UInt32.add_sub_cancel, UInt32.xor_assoc, UInt32.xor_self, UInt32.xor_zero]

/-- What a round adds and masks is taken back. -/
theorem add_sub_xor_cancel (a c k : UInt32) : a + (((c - a) ^^^ k) ^^^ k) = c := by
  rw [UInt32.xor_assoc, UInt32.xor_self, UInt32.xor_zero, UInt32.add_comm, UInt32.sub_add_cancel]

/-- A round is undone. -/
@[simp] theorem unround_round (x : Words) (rk : RoundKey) : unround (round x rk) rk = x := by
  simp only [unround, round, ror_rol _ (show 9 < 32 by decide), rol_ror _ (show 5 < 32 by decide),
    rol_ror _ (show 3 < 32 by decide), sub_xor_cancel]

/-- A round undoes its own undoing. -/
@[simp] theorem round_unround (y : Words) (rk : RoundKey) : round (unround y rk) rk = y := by
  simp only [unround, round, add_sub_xor_cancel, rol_ror _ (show 9 < 32 by decide),
    ror_rol _ (show 5 < 32 by decide), ror_rol _ (show 3 < 32 by decide)]

/-- The network backwards, from the last key on. -/
def undoRounds (keys : List RoundKey) (y : Words) : Words :=
  keys.foldr (fun rk y => unround y rk) y

/-- All rounds are undone, the last first. -/
theorem undoRounds_rounds (keys : List RoundKey) (x : Words) :
    undoRounds keys (keys.foldl round x) = x := by
  induction keys generalizing x with
  | nil => rfl
  | cons rk keys ih =>
      rw [undoRounds, List.foldr_cons, ← undoRounds, List.foldl_cons, ih, unround_round]

theorem rounds_undoRounds (keys : List RoundKey) (y : Words) :
    keys.foldl round (undoRounds keys y) = y := by
  induction keys with
  | nil => rfl
  | cons rk keys ih =>
      rw [undoRounds, List.foldr_cons, ← undoRounds, List.foldl_cons, round_unround, ih]

/-! ## blocks -/

/-- The first word is made of the first four bytes. -/
theorem words_succ (n : Nat) (bs : List UInt8) :
    words (n + 1) bs = UInt32.ofNat (ofLE (bs.take 4)) :: words n (bs.drop 4) := by
  rw [words, words, List.range_succ_eq_map, List.map_cons, List.map_map, Nat.mul_zero,
    List.drop_zero]
  congr 1
  refine List.map_congr_left fun i _ => ?_
  simp only [Function.comp_apply, List.drop_drop]
  congr 4
  omega

/-- The words of bytes written word by word. -/
theorem words_flatMap (ws : List UInt32) : words ws.length (ws.flatMap le32) = ws := by
  induction ws with
  | nil => rfl
  | cons w ws ih =>
      rw [List.length_cons, words_succ, List.flatMap_cons, take_append_of_length (length_le32 w),
        drop_append_of_length (length_le32 w), ofLE_le32, ih]

/-- Whole words are all of the bytes. -/
theorem flatMap_words {n : Nat} {bs : List UInt8} (h : bs.length = 4 * n) :
    (words n bs).flatMap le32 = bs := by
  induction n generalizing bs with
  | zero =>
      obtain rfl := List.length_eq_zero_iff.mp h
      rfl
  | succ n ih =>
      have htake : (bs.take 4).length = 4 := by
        rw [List.length_take]
        omega
      have hdrop : (bs.drop 4).length = 4 * n := by
        rw [List.length_drop]
        omega
      rw [words_succ, List.flatMap_cons, le32_ofLE htake, ih hdrop, List.take_append_drop]

/-- A block holds its words one behind the other. -/
theorem toList_store (x : Words) : (store x).toList = [x.x0, x.x1, x.x2, x.x3].flatMap le32 := by
  simp [store]

/-- Words are read as they were stored. -/
theorem load_store (x : Words) : load (store x) = x := by
  have hwords : words 4 (store x).toList = [x.x0, x.x1, x.x2, x.x3] := by
    rw [toList_store]
    exact words_flatMap [x.x0, x.x1, x.x2, x.x3]
  simp [load, hwords]

/-- A block is stored as it was read. -/
theorem store_load (block : Block) : store (load block) = block := by
  obtain ⟨w0, w1, w2, w3, hwords⟩ : ∃ w0 w1 w2 w3, words 4 block.toList = [w0, w1, w2, w3] := by
    simp [words, List.range_succ]
  have hbytes := flatMap_words (n := 4) (block.length_toList)
  rw [← Vector.toList_inj, toList_store]
  rw [hwords] at hbytes
  simpa [load, hwords] using hbytes

/-- The cipher backwards. -/
def decryptBlock (c : LeaCipher) (block : Block) : Block :=
  store (undoRounds c.roundKeys (load block))

/-- Decrypting gives back what was encrypted. -/
theorem decryptBlock_encryptBlock (c : LeaCipher) (block : Block) :
    c.decryptBlock (c.encryptBlock block) = block := by
  rw [decryptBlock, encryptBlock, load_store, undoRounds_rounds, store_load]

/-- So encryption is onto. -/
theorem encryptBlock_decryptBlock (c : LeaCipher) (block : Block) :
    c.encryptBlock (c.decryptBlock block) = block := by
  rw [decryptBlock, encryptBlock, load_store, rounds_undoRounds, store_load]

/-- A cipher permutes the blocks. -/
theorem encryptBlock_bijective (c : LeaCipher) : Function.Bijective c.encryptBlock :=
  ⟨Function.LeftInverse.injective c.decryptBlock_encryptBlock,
    Function.RightInverse.surjective c.encryptBlock_decryptBlock⟩

end LeaCipher

namespace LeaCtrDecryptor

/-! ## counters -/

/-- Counters below 2^128 have blocks of their own. -/
theorem counterBlock_injective {i j : Nat} (hi : i < 2 ^ 128) (hj : j < 2 ^ 128)
    (h : counterBlock i = counterBlock j) : i = j := by
  have hbytes : ∀ k < 2 ^ 128, ofLE (counterBlock k).toList.reverse = k := by
    intro k hk
    have hlist : (counterBlock k).toList.reverse = toLE 16 (k % 2 ^ 128) := by
      simp only [counterBlock, Vector.toList_mk, List.reverse_reverse]
    have hwidth : 256 ^ 16 = 2 ^ 128 := by norm_num
    rw [hlist, ofLE_toLE, hwidth, Nat.mod_mod, Nat.mod_eq_of_lt hk]
  rw [← hbytes i hi, h, hbytes j hj]

/-- Block `i` of the keystream of a fresh decryptor. -/
def keystreamBlock (cipher : LeaCipher) (authKey : List UInt8) (i : Nat) : Block :=
  (nextKeystreamBlock^[i + 1] (fresh cipher authKey)).keystream

/-- The counter counts the blocks, and the cipher stays. -/
theorem nextKeystreamBlock_iterate (cipher : LeaCipher) (authKey : List UInt8) (k : Nat) :
    (nextKeystreamBlock^[k] (fresh cipher authKey)).cipher = cipher ∧
      (nextKeystreamBlock^[k] (fresh cipher authKey)).counter = counterBlock k := by
  rw [← ctr128Inc_iterate]
  induction k with
  | zero => exact ⟨rfl, rfl⟩
  | succ k ih =>
      rw [Function.iterate_succ_apply', Function.iterate_succ_apply']
      exact ⟨ih.1, congrArg ctr128Inc ih.2⟩

/-- A block of the keystream is the counter, encrypted. -/
theorem keystreamBlock_eq (cipher : LeaCipher) (authKey : List UInt8) (i : Nat) :
    keystreamBlock cipher authKey i = cipher.encryptBlock (counterBlock i) := by
  obtain ⟨hcipher, hcounter⟩ := nextKeystreamBlock_iterate cipher authKey i
  rw [keystreamBlock, Function.iterate_succ_apply']
  simp only [nextKeystreamBlock, hcipher, hcounter]

/-- **The keystream of LEA never repeats a block**, because its cipher loses
nothing. -/
theorem keystreamBlock_injective (key authKey : List UInt8) :
    ∀ cipher ∈ [LeaCipher.new128 key, LeaCipher.new192 key, LeaCipher.new256 key],
      Function.Injective cipher.encryptBlock ∧ ∀ i j, i < 2 ^ 128 → j < 2 ^ 128 → i ≠ j →
        keystreamBlock cipher authKey i ≠ keystreamBlock cipher authKey j := by
  intro cipher _
  have hinj := cipher.encryptBlock_bijective.injective
  refine ⟨hinj, fun i j hi hj hne h => hne (counterBlock_injective hi hj (hinj ?_))⟩
  rwa [keystreamBlock_eq, keystreamBlock_eq] at h

/-- The first and the last block under the zero key. -/
theorem keystreamBlock_first_last :
    keystreamBlock (.new128 (List.replicate 16 0)) [] 0 ≠
      keystreamBlock (.new128 (List.replicate 16 0)) [] (2 ^ 128 - 1) :=
  (keystreamBlock_injective (List.replicate 16 0) [] _ (List.mem_cons_self ..)).2 _ _
    (by decide) (by decide) (by decide)

end LeaCtrDecryptor

end Unegg
