import Unegg.Coder.Handed
import Unegg.Crc32.Burst
import Unegg.Decompress.Encode
import Unegg.Extract.Readable
import Unegg.Extract.Selection

/-!
# Unegg.Extract.Burst

Damage to stored data is seen.

An entry that is stored as it is extracts only if each of its blocks has its
checksum (`crc32_stored`), and the checksum tells up to four adjacent bytes
apart.  So where an archive extracts, it no longer does once such bytes of a
stored block have changed (`burst_detected`).
-/

namespace Unegg

open Prog Crc32

variable {crates : Crates} {os : Os} {archive : EggArchive} {dest : Path}
  {password : Option String} {pipeMode : Bool} {filter : Option (List String)}
  {entry : EggFileEntry} {block : EggBlock} {blocks : List EggBlock} {w w' : World}
  {content before x y after : List UInt8} {contents : List (List UInt8)} {d : Option Decryptor}

/-! ## stored blocks -/

/-- Without a decryptor there is none behind a block either. -/
theorem BlockDecodes.crypto_none (h : BlockDecodes crates archive block none content d) :
    d = none := by
  rw [← h.crypto, recordBlock, Coder.crypto_run]
  · rfl
  · intro d
    rw [decryptSome_nil]
  · intro xs ys d
    rw [decryptSome_append]

/-- The bytes of a stored block are all there. -/
def EggBlock.IsStored (archive : EggArchive) (block : EggBlock) : Prop :=
  block.compressionMethod = .store ∧
    block.dataPos + block.compressedSize.toNat ≤ archive.reader.data.length

theorem BlockDecodes.crc32_stored (h : BlockDecodes crates archive block none content d)
    (hstored : block.IsStored archive) : crc32 (blockData archive block) = block.crc32 := by
  have hlen : (blockData archive block).length = block.compressedSize.toNat := by
    rw [blockData, List.length_take, List.length_drop]
    have hbound := hstored.2
    omega
  have hreturns := h.returns
  rw [recordBlock, hstored.1, ← hlen] at hreturns
  change (((extractStore (blockData archive block).length).run (decryptSome crates)
    ByteSink.recorder).run ⟨blockData archive block, none, []⟩).1 = _ at hreturns
  rw [extractStore_run] at hreturns
  exact Outcome.ok.inj hreturns

theorem BlocksDecode.crc32_stored (h : BlocksDecode crates archive blocks none contents) :
    ∀ block ∈ blocks, block.IsStored archive → crc32 (blockData archive block) = block.crc32 := by
  induction blocks generalizing contents with
  | nil => simp
  | cons block blocks ih =>
      cases h with
      | cons h hs =>
          obtain rfl := h.crypto_none
          rw [List.forall_mem_cons]
          exact ⟨h.crc32_stored, ih hs⟩

/-- The stored blocks of an entry that extracts have their checksums. -/
theorem crc32_stored (hcrates : crates.StopsOnError) (hdir : entry.isDirectory = false)
    (hplain : entry.encryptInfo = none)
    (h : (extractEntry crates os archive dest password pipeMode entry).run w = (.ok (), w')) :
    ∀ block ∈ entry.blocks, block.IsStored archive →
      crc32 (blockData archive block) = block.crc32 := by
  obtain ⟨-, content, hreadable⟩ := readable_of_ok hcrates h
  cases hreadable with
  | directory hdir' => simp [hdir] at hdir'
  | empty _ hblocks _ => simp [hblocks]
  | file _ _ hdata =>
      obtain ⟨crypto, hsetup, -, hdecodes⟩ := hdata.unlocks
      rw [setupDecryptor, hplain] at hsetup
      obtain rfl := Except.ok.inj hsetup
      exact hdecodes.crc32_stored

/-! ## all entries -/

theorem forEach_each {σ ε α : Type} {f : α → Run σ ε Unit} {as : List α} {s s' : σ}
    (h : (Run.forEach f as).run s = (.ok (), s')) :
    ∀ a ∈ as, ∃ s₁ s₂, (f a).run s₁ = (.ok (), s₂) := by
  induction as generalizing s with
  | nil => simp
  | cons a as ih =>
      rw [Run.forEach, Run.bind_ok] at h
      obtain ⟨_, s₁, hfirst, hrest⟩ := h
      rw [List.forall_mem_cons]
      exact ⟨⟨s, s₁, hfirst⟩, ih hrest⟩

theorem extraction_each (hsolid : archive.isSolid = false)
    (h : ((extraction crates os archive dest password pipeMode filter).run w).1 = .ok ()) :
    ∀ entry ∈ selected filter archive.entries, ∃ w₁ w₂,
      (extractEntry crates os archive dest password pipeMode entry).run w₁ = (.ok (), w₂) := by
  have hrun : (extraction crates os archive dest password pipeMode filter).run w =
      (.ok (), ((extraction crates os archive dest password pipeMode filter).run w).2) :=
    Prod.ext h rfl
  rw [extraction_entries _ _ _ _ _ _ _ hsolid, Run.bind_ok] at hrun
  obtain ⟨_, w₁, hentries, -⟩ := hrun
  exact forEach_each hentries

/-! ## damage -/

/-- The archive with other bytes behind it. -/
def EggArchive.over (archive : EggArchive) (data : List UInt8) : EggArchive :=
  { archive with reader := ⟨data, archive.reader.pos⟩ }

/-- The bytes from `i` on up to `j` are those of a stored block that is extracted. -/
structure StoredAt (archive : EggArchive) (filter : Option (List String)) (i j : Nat)
    (entry : EggFileEntry) (block : EggBlock) : Prop where
  extracted : entry ∈ selected filter archive.entries
  file : entry.isDirectory = false
  plain : entry.encryptInfo = none
  has : block ∈ entry.blocks
  stored : block.IsStored archive
  starts : block.dataPos ≤ i
  ends : j ≤ block.dataPos + block.compressedSize.toNat

theorem StoredAt.over {i j : Nat} {data : List UInt8}
    (h : StoredAt archive filter i j entry block) (hlen : data.length = archive.reader.data.length) :
    StoredAt (archive.over data) filter i j entry block where
  extracted := h.extracted
  file := h.file
  plain := h.plain
  has := h.has
  stored := by
    refine ⟨h.stored.1, ?_⟩
    rw [EggArchive.over, hlen]
    exact h.stored.2
  starts := h.starts
  ends := h.ends

/-- A stored block of an archive that extracts has its checksum. -/
theorem StoredAt.crc32_eq {i j : Nat} (h : StoredAt archive filter i j entry block)
    (hcrates : crates.StopsOnError) (hsolid : archive.isSolid = false)
    (hok : ((extraction crates os archive dest password pipeMode filter).run w).1 = .ok ()) :
    crc32 (blockData archive block) = block.crc32 := by
  obtain ⟨w₁, w₂, hrun⟩ := extraction_each hsolid hok entry h.extracted
  exact crc32_stored hcrates h.file h.plain hrun block h.has h.stored

/-- The data of a block around some bytes of it. -/
theorem blockData_append (hdata : archive.reader.data = before ++ x ++ after)
    (hstarts : block.dataPos ≤ before.length)
    (hends : before.length + x.length ≤ block.dataPos + block.compressedSize.toNat) :
    blockData archive block = before.drop block.dataPos ++ x ++ after.take
      (block.dataPos + block.compressedSize.toNat - (before.length + x.length)) := by
  rw [blockData, hdata, List.append_assoc, List.drop_append_of_le_length hstarts, List.take_append,
    List.take_append, List.append_assoc, List.length_drop, List.take_of_length_le, List.take_of_length_le]
  · congr 3
    omega
  · omega
  · rw [List.length_drop]
    omega

/-- **Damage is seen.**  Where an archive extracts, it does not with one to four adjacent
bytes changed in the data of a stored block, whatever it is then extracted on, to and
with. -/
theorem burst_detected (hcrates : crates.StopsOnError) (os os' : Os) (dest dest' : Path)
    (password password' : Option String) (pipeMode pipeMode' : Bool) (w w' : World)
    (hsolid : archive.isSolid = false)
    (hdata : archive.reader.data = before ++ x ++ after) (hlen : x.length = y.length)
    (hshort : x.length ≤ 4) (hne : x ≠ y)
    (hstored : StoredAt archive filter before.length (before.length + x.length) entry block)
    (hok : ((extraction crates os archive dest password pipeMode filter).run w).1 = .ok ()) :
    ((extraction crates os' (archive.over (before ++ y ++ after)) dest' password' pipeMode'
      filter).run w').1 ≠ .ok () := by
  intro hok'
  have hsame : (before ++ y ++ after).length = archive.reader.data.length := by
    rw [hdata, List.length_append, List.length_append, List.length_append, List.length_append, hlen]
  have hstored' := hstored.over hsame
  have hcrc : crc32 (blockData archive block) = block.crc32 := hstored.crc32_eq hcrates hsolid hok
  have hcrc' : crc32 (blockData (archive.over (before ++ y ++ after)) block) = block.crc32 :=
    hstored'.crc32_eq hcrates hsolid hok'
  rw [blockData_append hdata hstored.starts hstored.ends] at hcrc
  rw [blockData_append rfl hstored.starts (hlen ▸ hstored.ends), ← hlen] at hcrc'
  exact hne (crc32_burst hlen hshort (hcrc.trans hcrc'.symm))

/-- Two stored blocks of one byte each, as an archive of one entry. -/
def storedArchive : EggArchive := { storedBytes with entries := [fullEntry] }

/-- It extracts, but not with another second byte. -/
theorem storedArchive_burst :
    ((extraction .storeOnly .obliging storedArchive [.normal "out"] none false none).run []).1 =
        .ok () ∧
      ((extraction .storeOnly .obliging (storedArchive.over ([0x61] ++ [0x63] ++ []))
        [.normal "out"] none false none).run []).1 ≠ .ok () := by
  have hok : ((extraction .storeOnly .obliging storedArchive [.normal "out"] none false
      none).run []).1 = .ok () := by decide +kernel
  have hdata : storedArchive.reader.data = [0x61] ++ [0x62] ++ [] := rfl
  have hstored : StoredAt storedArchive none 1 2 fullEntry ⟨.store, 1, 1, 0x71BEEFF9, 1⟩ :=
    ⟨by decide, rfl, rfl, by decide, ⟨rfl, by decide⟩, by decide, by decide⟩
  exact ⟨hok, burst_detected Crates.storeOnly_stops .obliging .obliging [.normal "out"]
    [.normal "out"] none none false false [] [] rfl hdata rfl (by decide) (by decide) hstored hok⟩

end Unegg
