import Unegg.Coder.Lockstep
import Unegg.Coder.Logged
import Unegg.Decompress.Checksum
import Unegg.Extract

/-!
# Unegg.Extract.Accepted

The integrity check of a block covers what its output has accepted.

`decompressBlockTo` decompresses a block to any writer.  Run on a writer with a
log, it keeps the log within the block's size however it ends, and the checksum
it returns is that of the log (`decompressBlockTo_accepted`).
-/

namespace Unegg

open Prog Crc32 Coder

variable {σ : Type}

/-- `decompress_block` to a writer. -/
def decompressBlockTo (crates : Crates) (archive : EggArchive) (v : ByteSink IoError σ)
    (block : EggBlock) : Run (Option Decryptor × σ) EggError UInt32 := ⟨fun p =>
  let decode := decompress crates block.compressionMethod block.compressedSize.toNat
    block.uncompressedSize.toNat p.1.isSome
  let r := (decode.run (decryptSome crates) (limitWriter v)).run
    { rest := (archive.reader.data.drop block.dataPos).take block.compressedSize.toNat
      crypto := p.1
      out := (p.2, block.uncompressedSize.toNat) }
  (r.1, (r.2.crypto, r.2.out.1))⟩

/-- The extraction's own writers are files and standard output. -/
theorem decompressBlock_eq (crates : Crates) (os : Os) (archive : EggArchive) (out : Target)
    (block : EggBlock) : decompressBlock crates os archive out block =
      decompressBlockTo crates archive (os.sink out) block := rfl

variable {crates : Crates} {archive : EggArchive} {v : ByteSink IoError σ}

/-! ## the cap -/

/-- What was accepted and what may still be accepted add up to the same. -/
def SameTotal (p q : (σ × List UInt8) × Nat) : Prop := q.1.2.length + q.2 = p.1.2.length + p.2

instance : Std.Refl (SameTotal (σ := σ)) := ⟨fun _ => rfl⟩

instance : IsTrans ((σ × List UInt8) × Nat) SameTotal := ⟨fun _ _ _ h h' => h'.trans h⟩

theorem sameTotal_write (bs : List UInt8) :
    Run.Steps SameTotal ((limitWriter v.logged).write bs) := by
  intro p
  simp only [limitWriter]
  split
  · exact Std.Refl.refl p
  · next hroom =>
      simp only [ByteSink.logged]
      rcases hw : (v.write bs).run p.1.1 with ⟨n | e | _ | _, s⟩
      · have hn := v.write_le _ _ _ _ hw
        simp only [SameTotal, List.length_append, List.length_take]
        omega
      all_goals rfl

theorem sameTotal_flush : Run.Steps SameTotal (limitWriter v.logged).flush := fun _ => rfl

/-- A log below the cap does not show. -/
theorem inStep_limitWriter_logged : InStep (limitWriter v) (limitWriter v.logged)
    fun p q => q.1.1 = p.1 ∧ q.2 = p.2 := by
  refine .of_write ?_ ?_
  · rintro bs ⟨s, cap⟩ ⟨⟨s', log⟩, cap'⟩ ⟨rfl, rfl⟩
    have hwrite := ByteSink.alike_logged_write (w := v) bs s' log
    simp only [limitWriter]
    split
    · exact .err ⟨rfl, rfl⟩
    · generalize (v.write bs).run s' = p at hwrite
      generalize (v.logged.write bs).run (s', log) = q at hwrite
      cases hwrite with
      | ok h => exact .ok ⟨h, rfl⟩
      | err h => exact .err ⟨h, rfl⟩
      | panic h => exact .panic ⟨h, rfl⟩
      | hang h => exact .hang ⟨h, rfl⟩
  · rintro ⟨s, cap⟩ ⟨⟨s', log⟩, cap'⟩ ⟨rfl, rfl⟩
    have hflush := ByteSink.alike_logged_flush (w := v) s' log
    simp only [limitWriter]
    generalize v.flush.run s' = p at hflush
    generalize v.logged.flush.run (s', log) = q at hflush
    cases hflush with
    | ok h => exact .ok ⟨h, rfl⟩
    | err h => exact .err ⟨h, rfl⟩
    | panic h => exact .panic ⟨h, rfl⟩
    | hang h => exact .hang ⟨h, rfl⟩

/-! ## the block -/

/-- **The integrity check covers exactly what was accepted**, which is no more
than the block's size.  The log is that of the run on the logged writer, which
is otherwise the run on the writer. -/
theorem decompressBlockTo_accepted (hazo : crates.AzoChecksum) (archive : EggArchive)
    (v : ByteSink IoError σ) (block : EggBlock) (d : Option Decryptor) (s : σ) :
    ∃ (o : Outcome EggError UInt32) (d' : Option Decryptor) (s' : σ) (log : List UInt8),
      (decompressBlockTo crates archive v block).run (d, s) = (o, (d', s')) ∧
        (decompressBlockTo crates archive v.logged block).run (d, (s, [])) =
          (o, (d', (s', log))) ∧
        log.length ≤ block.uncompressedSize.toNat ∧ ∀ c, o = .ok c → c = crc32 log := by
  let size := block.uncompressedSize.toNat
  let bs := (archive.reader.data.drop block.dataPos).take block.compressedSize.toNat
  let decode := decompress crates block.compressionMethod block.compressedSize.toNat size d.isSome
  let io : Io (Option Decryptor) (σ × Nat) := ⟨bs, d, (s, size)⟩
  let io' : Io (Option Decryptor) ((σ × List UInt8) × Nat) := ⟨bs, d, ((s, []), size)⟩
  have hio : SameIo (fun p q => q.1.1 = p.1 ∧ q.2 = p.2) io io' := ⟨rfl, rfl, rfl, rfl⟩
  have hstep := (inStep_limitWriter_logged (v := v)).run (decryptSome crates) decode hio
  rcases hplain : (decode.run (decryptSome crates) (limitWriter v)).run io with ⟨o, io₁⟩
  rcases hlogged : (decode.run (decryptSome crates) (limitWriter v.logged)).run io' with ⟨o', io₁'⟩
  rw [hplain, hlogged] at hstep
  have hrelated := hstep.related
  obtain rfl : o = o' := hstep.outcome
  have htotal : SameTotal io'.out io₁'.out :=
    (steps_run sameTotal_write sameTotal_flush decode).of_run hlogged
  refine ⟨o, io₁.crypto, io₁.out.1, io₁'.out.1.2,
    congrArg (fun r => (r.1, (r.2.crypto, r.2.out.1))) hplain, ?_, ?_, ?_⟩
  · rw [hrelated.crypto, ← hrelated.out.1]
    exact congrArg (fun r => (r.1, (r.2.crypto, r.2.out.1))) hlogged
  · simp only [SameTotal, io', List.length_nil, size] at htotal
    omega
  · rintro c rfl
    obtain ⟨e, hlog, hcrc⟩ := (delivers_decompress hazo block.compressionMethod
      block.compressedSize.toNat size d.isSome).run (takes_limitWriter ByteSink.takes_logged)
      (by rfl) hlogged
    rw [hlog, hcrc]

/-- A writer that takes one byte at a time and remembers nothing. -/
def oneByteWriter : ByteSink IoError Unit where
  write bs := pure (min 1 bs.length)
  flush := pure ()
  write_le := by
    intro bs s n s' h
    simp only [Run.pure_run, Prod.mk.injEq, Outcome.ok.injEq] at h
    omega

def twoStoredBytes : EggArchive where
  reader := ⟨[0x61, 0x62], 0⟩
  entries := []
  isEncrypted := false
  isSolid := false
  headerId := 0
  splitInfo := none

/-- Two bytes, written one by one. -/
theorem oneByteWriter_accepted : ∃ log : List UInt8,
    (decompressBlockTo .storeOnly twoStoredBytes oneByteWriter ⟨.store, 2, 2, 0, 0⟩).run
        (none, ()) = (.ok (crc32 log), (none, ())) ∧ log.length ≤ 2 := by
  have hazo : Crates.storeOnly.AzoChecksum := fun _ _ _ => trivial
  obtain ⟨o, d', s', log, hrun, -, hlen, hcrc⟩ :=
    decompressBlockTo_accepted hazo twoStoredBytes oneByteWriter ⟨.store, 2, 2, 0, 0⟩ none ()
  have ho : o = .ok 0x9E83486D := (congrArg Prod.fst hrun).symm.trans (by decide +kernel)
  have hd : d' = none := (congrArg (fun r => r.2.1) hrun).symm.trans (by decide +kernel)
  exact ⟨log, by rw [hrun, ho, hcrc _ ho, hd], hlen⟩

end Unegg
